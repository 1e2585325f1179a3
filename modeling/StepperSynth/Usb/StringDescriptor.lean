import StepperSynth.Basic
import StepperSynth.Common.Fields
import StepperSynth.Common.Machine

/-!
# String descriptors

Model of `tud_descriptor_string_cb` (`usb_descriptors.c` lines 71–89), which
builds the descriptor for an index chosen by the host in the static buffer
`_desc_str`, and of what the host reads in the reply. `TUSB_DESC_STRING` is a
constant of TinyUSB, the parameter `tusbDescString` here. Reads and writes
outside an array are errors.

* `copyChars_ok`: the copy loop.
* `describes_reply`: a reply is read back as the string.
* `requests_faithful_iff`: a sequence of requests is answered well iff every
  index is below 4.
-/

namespace StepperSynth

open Common

/-- `uint16_t`. -/
abbrev Half := BitVec 16

/-- `_desc_str` (line 69). -/
abbrev DescStr := Fin 32 → Half

/-- An access outside an array. -/
inductive UsbFault
  /-- `string_desc_arr[index]` past its last entry. -/
  | stringDescArrIndex
  /-- `strlen(str)` or `str[i]` past the end of `str`. -/
  | strIndex
  /-- `_desc_str[i]` with `i ≥ 32`. -/
  | descStrIndex
  deriving DecidableEq, Repr

/-- The array of a string literal. -/
def cString (s : List Char) : List Byte := s.map (fun c => BitVec.ofNat 8 c.toNat) ++ [0]

/-- `string_desc_arr` (lines 62–67). Entry 0 has no terminator. -/
def stringDescArr : List (List Byte) :=
  [[0x09, 0x04],
    cString ['T', 'i', 'n', 'y', 'U', 'S', 'B'],
    cString ['T', 'i', 'n', 'y', 'U', 'S', 'B', ' ', 'M', 'I', 'D', 'I'],
    cString ['1', '2', '3', '4', '5', '6']]

/-- `strlen`. -/
def strlen (str : List Byte) : Except UsbFault ℕ :=
  match str.findIdx? (· = 0) with
  | some n => .ok n
  | none => .error .strIndex

/-- `_desc_str[i] = v`. -/
def writeDesc (buf : DescStr) (i : ℕ) (v : Half) : Except UsbFault DescStr :=
  if h : i < 32 then .ok (Function.update buf ⟨i, h⟩ v) else .error .descStrIndex

/-- `_desc_str[1 + i] = str[i]` (line 83). The characters are all below 128. -/
def copyChar (str : List Byte) (buf : DescStr) (i : ℕ) : Except UsbFault DescStr :=
  match str[i]? with
  | some c => writeDesc buf (1 + i) (c.setWidth 16)
  | none => .error .strIndex

/-- The loop of lines 82–84. -/
def copyChars (str : List Byte) (chrCount : Byte) (buf : DescStr) : Except UsbFault DescStr :=
  (List.range chrCount.toNat).foldlM (copyChar str) buf

/-- Lines 76–85: the units behind the header, and their number. -/
def fillUnits (buf : DescStr) (index : Byte) : Except UsbFault (DescStr × Byte) := do
  if index = 0 then
    let buf ← writeDesc buf 1 0x0409
    return (buf, 1)
  else
    match stringDescArr[index.toNat]? with
    | none => throw .stringDescArrIndex
    | some str =>
      let chrCount := BitVec.ofNat 8 (← strlen str)
      let buf ← copyChars str chrCount buf
      return (buf, chrCount)

/-- Model of `tud_descriptor_string_cb`. It returns a pointer to `_desc_str`,
    here the contents, and never a null pointer. -/
def tudDescriptorStringCb (tusbDescString : Byte) (buf : DescStr) (index : Byte) (_langid : Half) :
    Except UsbFault (DescStr × Option DescStr) := do
  let (buf, chrCount) ← fillUnits buf index
  let buf ← writeDesc buf 0
    (tusbDescString.setWidth 16 <<< 8 ||| (2 * chrCount.setWidth 16 + 2))
  return (buf, some buf)

/-! ## What the host reads -/

/-- `bLength`, in bytes. -/
def hostLength (buf : DescStr) : ℕ := ((buf 0).extractLsb' 0 8).toNat

/-- `bDescriptorType`. -/
def hostType (buf : DescStr) : Byte := (buf 0).extractLsb' 8 8

/-- The units within the length, behind the header. -/
def hostUnits (buf : DescStr) : List Half := ((List.ofFn buf).take (hostLength buf / 2)).tail

/-- The buffer is a string descriptor of these units. -/
structure Describes (tusbDescString : Byte) (units : List Half) (buf : DescStr) : Prop where
  length : hostLength buf = 2 * units.length + 2
  type : hostType buf = tusbDescString
  units : hostUnits buf = units

/-- The string for an index: the language id for index 0, else the characters of
    the table entry. -/
def deviceString (index : Byte) : Option (List Half) :=
  if index = 0 then some [0x0409]
  else stringDescArr[index.toNat]?.map fun str =>
    (str.takeWhile (· ≠ 0)).map (BitVec.setWidth 16)

/-- The reply is the descriptor of the string, or null if there is none. -/
def ReplyOk (tusbDescString : Byte) (index : Byte) : Option DescStr → Prop
  | none => deviceString index = none
  | some buf => ∃ units, deviceString index = some units ∧ Describes tusbDescString units buf

/-! ## The buffer -/

/-- The buffer with these units behind the header. -/
def withUnits (units : List Half) (buf : DescStr) : DescStr := fun j =>
  if j = 0 then buf 0 else units[(j : ℕ) - 1]?.getD (buf j)

theorem withUnits_nil (buf : DescStr) : withUnits [] buf = buf := by
  funext j
  unfold withUnits
  split_ifs with h0
  · rw [h0]
  · rfl

/-- The next unit goes behind those already there. -/
theorem writeDesc_withUnits {units : List Half} (hlen : units.length < 31) (buf : DescStr)
    (u : Half) : writeDesc (withUnits units buf) (1 + units.length) u =
      .ok (withUnits (units ++ [u]) buf) := by
  have hlt : 1 + units.length < 32 := by omega
  unfold writeDesc
  rw [dif_pos hlt]
  refine congrArg Except.ok ?_
  funext j
  by_cases hj : j = ⟨1 + units.length, hlt⟩
  · have hj0 : j ≠ 0 := by
      rintro rfl
      have hval : 0 = 1 + units.length := congrArg Fin.val hj
      omega
    have hsub : (j : ℕ) - 1 = units.length := by
      rw [hj]
      show 1 + units.length - 1 = units.length
      omega
    unfold withUnits
    rw [← hj, Function.update_self, if_neg hj0, hsub, List.getElem?_concat_length, Option.getD_some]
  · have hval : (j : ℕ) ≠ 1 + units.length := fun h => hj (Fin.ext h)
    rw [Function.update_of_ne hj]
    unfold withUnits
    by_cases hj0 : j = 0
    · rw [if_pos hj0, if_pos hj0]
    · have hpos : (j : ℕ) ≠ 0 := fun h => hj0 (Fin.ext h)
      rw [if_neg hj0, if_neg hj0]
      rcases lt_or_ge ((j : ℕ) - 1) units.length with hlt' | hge
      · rw [List.getElem?_append_left hlt']
      · have hge' : (units ++ [u]).length ≤ (j : ℕ) - 1 := by
          rw [List.length_append, List.length_singleton]
          omega
        rw [List.getElem?_eq_none hge, List.getElem?_eq_none hge']

/-- The copy loop puts the characters behind the header. -/
theorem copyChars_ok (str : List Byte) (buf : DescStr) {n : ℕ} (hstr : n ≤ str.length)
    (hn : n ≤ 31) : copyChars str (BitVec.ofNat 8 n) buf =
      .ok (withUnits ((str.take n).map (BitVec.setWidth 16)) buf) := by
  have hcount : (BitVec.ofNat 8 n).toNat = n := Nat.mod_eq_of_lt (by omega)
  unfold copyChars
  rw [hcount]
  clear hcount
  induction n with
  | zero => exact congrArg Except.ok (withUnits_nil buf).symm
  | succ n ih =>
    have hlen : ((str.take n).map (BitVec.setWidth 16)).length = n := by
      rw [List.length_map, List.length_take]
      omega
    have hwrite := writeDesc_withUnits (by rw [hlen]; omega) buf ((str[n]).setWidth 16)
    rw [hlen] at hwrite
    rw [List.range_succ, List.foldlM_append, ih (by omega) (by omega)]
    show copyChar str _ n >>= pure = _
    unfold copyChar
    rw [List.getElem?_eq_getElem hstr, bind_pure]
    simp only [hwrite]
    rw [List.take_succ_eq_append_getElem hstr, List.map_append]
    rfl

/-! ## The reply -/

/-- `_desc_str[0]` (line 87), for `n` units. -/
def header (tusbDescString : Byte) (n : ℕ) : Half :=
  tusbDescString.setWidth 16 <<< 8 ||| (2 * (BitVec.ofNat 8 n).setWidth 16 + 2)

/-- The two bytes of the header do not overlap. -/
theorem header_bytes (tusbDescString : Byte) {n : ℕ} (hn : n ≤ 31) :
    ((header tusbDescString n).extractLsb' 0 8).toNat = 2 * n + 2 ∧
      (header tusbDescString n).extractLsb' 8 8 = tusbDescString := by
  have hlow : (2 * (BitVec.ofNat 8 n).setWidth 16 + 2 : Half).toNat = 2 * n + 2 := by bv_omega
  unfold header
  generalize (2 * (BitVec.ofNat 8 n).setWidth 16 + 2 : Half) = low at hlow
  have hhigh : low.extractLsb' 8 8 = 0#8 := by
    apply BitVec.eq_of_toNat_eq
    rw [BitVec.extractLsb'_toNat, Nat.shiftRight_eq_div_pow, hlow]
    show (2 * n + 2) / 2 ^ 8 % 2 ^ 8 = 0
    omega
  rw [BitVec.or_comm, or_setWidth_shiftLeft (by omega), hhigh, BitVec.zero_or]
  constructor
  · rw [extractLsb'_writeField_of_disjoint (by omega) (by omega), BitVec.extractLsb'_toNat, hlow]
    show (2 * n + 2) >>> 0 % 2 ^ 8 = 2 * n + 2
    rw [Nat.shiftRight_zero]
    omega
  · exact extractLsb'_writeField_self (by omega) low tusbDescString

/-- The header and the units behind it are read back, whatever else is in the
    buffer. -/
theorem describes_reply (tusbDescString : Byte) {units : List Half} (hlen : units.length ≤ 31)
    (buf : DescStr) : Describes tusbDescString units
      (Function.update (withUnits units buf) 0 (header tusbDescString units.length)) := by
  obtain ⟨hlow, hhigh⟩ := header_bytes tusbDescString hlen
  have hlength : hostLength (Function.update (withUnits units buf) 0
      (header tusbDescString units.length)) = 2 * units.length + 2 := by
    unfold hostLength
    rw [Function.update_self, hlow]
  refine ⟨hlength, ?_, ?_⟩
  · unfold hostType
    rw [Function.update_self, hhigh]
  · unfold hostUnits
    have hhalf : (2 * units.length + 2) / 2 = units.length + 1 := by omega
    rw [hlength, hhalf]
    apply List.ext_getElem?
    intro i
    rw [List.getElem?_tail, List.getElem?_take]
    split_ifs with hi
    · have hlt : i + 1 < 32 := by omega
      have hne : (⟨i + 1, hlt⟩ : Fin 32) ≠ 0 := by
        intro h
        have hval : i + 1 = 0 := congrArg Fin.val h
        omega
      rw [List.getElem?_ofFn, dif_pos hlt, Function.update_of_ne hne]
      unfold withUnits
      have hunit : i < units.length := by omega
      rw [if_neg hne, Nat.add_sub_cancel, List.getElem?_eq_getElem hunit, Option.getD_some]
    · exact (List.getElem?_eq_none (by omega)).symm

/-- The units behind the header are in place: the call returns their descriptor. -/
theorem callback_of_fillUnits {tusbDescString index : Byte} {buf : DescStr} {units : List Half}
    {n : ℕ} (hcount : units.length = n)
    (hfill : fillUnits buf index = .ok (withUnits units buf, BitVec.ofNat 8 n)) (hn : n ≤ 31)
    (hunits : deviceString index = some units) (langid : Half) :
    ∃ buf' out, tudDescriptorStringCb tusbDescString buf index langid = .ok (buf', out) ∧
      ReplyOk tusbDescString index out := by
  subst hcount
  let reply := Function.update (withUnits units buf) 0 (header tusbDescString units.length)
  refine ⟨reply, some reply, ?_, units, hunits, describes_reply tusbDescString hn buf⟩
  unfold tudDescriptorStringCb
  rw [hfill]
  rfl

/-! ## The table -/

theorem strlen_ok {str : List Byte} {n : ℕ} (h : strlen str = .ok n) :
    n ≤ str.length ∧ str.takeWhile (· ≠ 0) = str.take n := by
  unfold strlen at h
  cases hfind : str.findIdx? (· = 0) with
  | none => rw [hfind] at h; cases h
  | some m =>
    rw [hfind] at h
    cases h
    obtain ⟨hlt, hidx⟩ := List.findIdx?_eq_some_iff_findIdx_eq.mp hfind
    refine ⟨hlt.le, ?_⟩
    have hnot : (fun c : Byte => !decide (c ≠ 0)) = fun c => decide (c = 0) := by
      funext c
      simp
    rw [List.takeWhile_eq_take_findIdx_not, hnot, hidx]

/-- A string of the table is copied behind the header. -/
theorem fillUnits_string {index : Byte} (h0 : index ≠ 0) {str : List Byte}
    (hstr : stringDescArr[index.toNat]? = some str) {n : ℕ} (hlen : strlen str = .ok n)
    (hn : n ≤ 31) (buf : DescStr) : fillUnits buf index =
      .ok (withUnits ((str.take n).map (BitVec.setWidth 16)) buf, BitVec.ofNat 8 n) := by
  unfold fillUnits
  rw [if_neg h0, hstr]
  simp only [hlen]
  show (copyChars str (BitVec.ofNat 8 n) buf >>= _) = _
  rw [copyChars_ok str buf (strlen_ok hlen).1 hn]
  rfl

/-- The entries behind the first are strings that fit. -/
theorem stringDescArr_fits {index : Byte} (h0 : index ≠ 0) (h4 : index < 4) :
    ∃ str n, stringDescArr[index.toNat]? = some str ∧ strlen str = .ok n ∧ n ≤ 31 := by
  have hcases : index = 1 ∨ index = 2 ∨ index = 3 := by bv_omega
  rcases hcases with rfl | rfl | rfl
  · exact ⟨_, 7, rfl, rfl, by decide⟩
  · exact ⟨_, 12, rfl, rfl, by decide⟩
  · exact ⟨_, 6, rfl, rfl, by decide⟩

/-- A request for an index below 4. -/
theorem callback_ok (tusbDescString : Byte) (buf : DescStr) {index : Byte} (h4 : index < 4)
    (langid : Half) :
    ∃ buf' out, tudDescriptorStringCb tusbDescString buf index langid = .ok (buf', out) ∧
      ReplyOk tusbDescString index out := by
  by_cases h0 : index = 0
  · have hwrite : writeDesc (withUnits [] buf) 1 0x0409 = .ok (withUnits [0x0409] buf) :=
      writeDesc_withUnits (by decide) buf 0x0409
    rw [withUnits_nil] at hwrite
    have hfill : fillUnits buf index = .ok (withUnits [0x0409] buf, BitVec.ofNat 8 1) := by
      unfold fillUnits
      rw [if_pos h0, hwrite]
      rfl
    refine callback_of_fillUnits rfl hfill (by decide) ?_ langid
    unfold deviceString
    rw [if_pos h0]
  · obtain ⟨str, n, hstr, hlen, hn⟩ := stringDescArr_fits h0 h4
    obtain ⟨hle, htake⟩ := strlen_ok hlen
    have hcount : ((str.take n).map (BitVec.setWidth 16 : Byte → Half)).length = n := by
      rw [List.length_map, List.length_take]
      omega
    refine callback_of_fillUnits hcount (fillUnits_string h0 hstr hlen hn buf) hn ?_ langid
    unfold deviceString
    rw [if_neg h0, hstr, Option.map_some, htake]

/-- A request for an index past the table reads outside it. -/
theorem callback_error (tusbDescString : Byte) (buf : DescStr) {index : Byte} (h4 : ¬ index < 4)
    (langid : Half) :
    tudDescriptorStringCb tusbDescString buf index langid = .error .stringDescArrIndex := by
  have h0 : index ≠ 0 := by
    rintro rfl
    exact h4 (by decide)
  have hstr : stringDescArr[index.toNat]? = none := by
    apply List.getElem?_eq_none
    show 4 ≤ index.toNat
    bv_omega
  unfold tudDescriptorStringCb fillUnits
  rw [if_neg h0, hstr]
  rfl

/-! ## Sequences of requests -/

/-- One request. -/
def request (tusbDescString : Byte) (buf : DescStr) (r : Byte × Half) :
    Except UsbFault (DescStr × Option DescStr) :=
  tudDescriptorStringCb tusbDescString buf r.1 r.2

/-- The requests make no access outside an array, and every reply is the
    descriptor of the string for its index, or null if there is none. -/
def Faithful (tusbDescString : Byte) (buf : DescStr) (requests : List (Byte × Half)) : Prop :=
  ∃ buf' replies, trace (request tusbDescString) buf requests = .ok (buf', replies) ∧
    List.Forall₂ (fun r reply => ReplyOk tusbDescString r.1 reply) requests replies

/-- **When the string descriptors are safe and faithful.** Whatever the buffer
    holds, a sequence of requests makes no access outside `string_desc_arr` and
    `_desc_str` and is answered with the right descriptors, or null where there
    is no string, if and only if every index is below 4. -/
theorem requests_faithful_iff (tusbDescString : Byte) (buf : DescStr)
    (requests : List (Byte × Half)) :
    Faithful tusbDescString buf requests ↔ ∀ r ∈ requests, r.1 < 4 := by
  constructor
  · rintro ⟨buf', replies, htrace, -⟩ r hr
    obtain ⟨b, reply, hok⟩ := step_ok_of_trace htrace hr
    by_contra h4
    unfold request at hok
    rw [callback_error tusbDescString b h4] at hok
    cases hok
  · intro hall
    exact trace_all (fun b r hr => callback_ok tusbDescString b hr r.2) buf requests hall

/-- A host that asks for index `0xEE`. -/
theorem requests_unfaithful : ¬ Faithful 0x03 (fun _ => 0) [(1, 0x0409), (0xEE, 0)] := by
  rintro ⟨buf', replies, htrace, -⟩
  cases htrace

end StepperSynth
