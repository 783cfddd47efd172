import GameServer.Base.SixBit

set_option autoImplicit false

/- The client's base64: the two tables of base64.cpp under the loops of base64.h. -/
namespace GameServer.Base64

open Base

def enctable : List UInt8 :=
  "ABCDEFGHIJKLMNOPQRSTUVWXYZabcdefghijklmnopqrstuvwxyz0123456789+_".toList.map
    fun c => UInt8.ofNat c.toNat

def dectable : List Int8 :=
  [-1, -1, -1, -1, -1, -1, -1, -1, -1, -1, -1, -1, -1, -1, -1, -1,
   -1, -1, -1, -1, -1, -1, -1, -1, -1, -1, -1, -1, -1, -1, -1, -1,
   -1, -1, -1, -1, -1, -1, -1, -1, -1, -1, -1, 62, -1, -1, -1, 63,
   52, 53, 54, 55, 56, 57, 58, 59, 60, 61, -1, -1, -1, -1, -1, -1,
   -1,  0,  1,  2,  3,  4,  5,  6,  7,  8,  9, 10, 11, 12, 13, 14,
   15, 16, 17, 18, 19, 20, 21, 22, 23, 24, 25, -1, -1, -1, -1, -1,
   -1, 26, 27, 28, 29, 30, 31, 32, 33, 34, 35, 36, 37, 38, 39, 40,
   41, 42, 43, 44, 45, 46, 47, 48, 49, 50, 51, -1, -1, -1, -1, -1]

/-- `enctable[index]`; no index of the encoder is past 63. -/
def symbol (index : UInt8) : UInt8 := (enctable[index.toNat]?).getD 0

/-- `'='` -/
def equals : UInt8 := 61

/-- The loop of encode_from_array. -/
def encode : List UInt8 → List UInt8
  | [] => []
  | [c1] => [symbol (c1 >>> 2), symbol ((c1 &&& 0x3) <<< 4), equals, equals]
  | [c1, c2] =>
      [symbol (c1 >>> 2), symbol (((c1 &&& 0x3) <<< 4) ||| ((c2 &&& 0xf0) >>> 4)),
        symbol ((c2 &&& 0xf) <<< 2), equals]
  | c1 :: c2 :: c3 :: rest =>
      symbol (c1 >>> 2) :: symbol (((c1 &&& 0x3) <<< 4) ||| ((c2 &&& 0xf0) >>> 4)) ::
        symbol (((c2 &&& 0xf) <<< 2) ||| ((c3 &&& 0xc0) >>> 6)) :: symbol (c3 &&& 0x3f) :: encode rest

/-- `size` is an `unsigned int`. -/
def encodeFromArray (s : List UInt8) (size : UInt32) : List UInt8 := encode (s.take size.toNat)

/-- The output, the index and the characters from the index on. -/
structure Cursor where
  dest : List UInt8
  i : Nat
  rest : List UInt8
  deriving DecidableEq

/-- How `decode` ends: it returns, or it has left one of its tables. -/
inductive Exit where
  | returned (dest : List UInt8) (i : Nat)
  | outside
  deriving DecidableEq

/-- `do { c = dectable[s[i++] & 0xff]; } while (i < size && c == -1);`, with the test
for `'='` the last two of these loops make. Where `c` stays -1, `decode` is over. -/
def scan (padded : Bool) (dest : List UInt8) : Nat → List UInt8 → Except Exit (UInt8 × Cursor)
  -- `s[size]` is the terminator, for which the table has -1.
  | i, [] => .error (.returned dest (i + 1))
  | i, c :: rest =>
      if padded = true ∧ c = equals then .error (.returned dest (i + 1))
      else
        match dectable[c.toNat]? with
        | none => .error .outside
        | some value =>
            if value ≠ -1 then .ok (value.toUInt8, ⟨dest, i + 1, rest⟩)
            else if rest = [] then .error (.returned dest (i + 1))
            else scan padded dest (i + 1) rest

def byte1 (c1 c2 : UInt8) : UInt8 := (c1 <<< 2) ||| ((c2 &&& 0x30) >>> 4)

def byte2 (c2 c3 : UInt8) : UInt8 := ((c2 &&& 0xf) <<< 4) ||| ((c3 &&& 0x3c) >>> 2)

def byte3 (c3 c4 : UInt8) : UInt8 := ((c3 &&& 0x03) <<< 6) ||| c4

/-- One round of the while loop of `decode`. -/
def round (start : Cursor) : Except Exit Cursor := do
  let (c1, at1) ← scan false start.dest start.i start.rest
  let (c2, at2) ← scan false at1.dest at1.i at1.rest
  let (c3, at3) ← scan true (at2.dest ++ [byte1 c1 c2]) at2.i at2.rest
  let (c4, at4) ← scan true (at3.dest ++ [byte2 c2 c3]) at3.i at3.rest
  pure { at4 with dest := at4.dest ++ [byte3 c3 c4] }

theorem scan_shorter {padded : Bool} {dest text : List UInt8} {i : Nat} {c : UInt8} {after : Cursor}
    (found : scan padded dest i text = .ok (c, after)) : after.rest.length < text.length := by
  induction text generalizing i with
  | nil => cases found
  | cons first text ih =>
      unfold scan at found
      split at found
      · cases found
      · split at found
        · cases found
        · split at found
          · cases found
            exact Nat.lt_succ_self _
          · split at found
            · cases found
            · exact Nat.lt_succ_of_lt (ih found)

theorem bind_eq_ok {ε α β : Type} {first : Except ε α} {next : α → Except ε β} {result : β}
    (whole : first >>= next = .ok result) : ∃ value, first = .ok value ∧ next value = .ok result := by
  cases first with
  | error failure => cases whole
  | ok value => exact ⟨value, rfl, whole⟩

theorem round_shorter {start after : Cursor} (again : round start = .ok after) :
    after.rest.length < start.rest.length := by
  unfold round at again
  obtain ⟨⟨c1, at1⟩, scan1, again⟩ := bind_eq_ok again
  obtain ⟨⟨c2, at2⟩, scan2, again⟩ := bind_eq_ok again
  obtain ⟨⟨c3, at3⟩, scan3, again⟩ := bind_eq_ok again
  obtain ⟨⟨c4, at4⟩, scan4, again⟩ := bind_eq_ok again
  cases again
  have less1 := scan_shorter scan1
  have less2 := scan_shorter scan2
  have less3 := scan_shorter scan3
  have less4 := scan_shorter scan4
  change at4.rest.length < _
  omega

/-- The while loop of `decode`. -/
def decodeLoop (cursor : Cursor) : Exit :=
  if cursor.rest = [] then .returned cursor.dest cursor.i
  else
    match _again : round cursor with
    | .ok after => decodeLoop after
    | .error exit => exit
termination_by cursor.rest.length
decreasing_by exact round_shorter ‹_›

/-- The index is an `int`, which holds no more than this. -/
def intMax : Nat := 2147483647

/-- `decode`; no result where it leaves a table or its index overflows. -/
def decode (s : List UInt8) : Option (List UInt8) :=
  match decodeLoop ⟨[], 0, s⟩ with
  | .returned dest i => if i ≤ intMax then some dest else none
  | .outside => none

/-- The character written for a group of six bits. -/
def letter (group : Fin 64) : UInt8 := symbol (UInt8.ofNat group.val)

/-- The characters that fill the last four up. -/
def padding (length : Nat) : List UInt8 := List.replicate ((3 - length % 3) % 3) equals

section Encoder

variable (a b c : UInt8)

theorem symbol_eq (index : UInt8) (n : Nat) (same : index.toNat = n % 64) :
    symbol index = letter (Fin.ofNat 64 n) := by
  rw [letter, Fin.val_ofNat, ← same, UInt8.ofNat_toNat]

theorem symbol_first : symbol (a >>> 2) = letter (Fin.ofNat 64 (a.toNat / 4)) := by
  apply symbol_eq
  have bound := a.toNat_lt
  rw [UInt8.toNat_shiftRight, Nat.shiftRight_eq_div_pow]
  change a.toNat / 4 = _
  omega

theorem symbol_second :
    symbol (((a &&& 0x3) <<< 4) ||| ((b &&& 0xf0) >>> 4)) =
      letter (Fin.ofNat 64 (a.toNat * 16 + b.toNat / 16)) := by
  apply symbol_eq
  have bound := b.toNat_lt
  have upper := toNat_field_up a 0x3 4 4 2 rfl rfl (by decide)
  have lower := toNat_field_down b 0xf0 4 4 4 rfl rfl
  rw [toNat_fields _ _ 4 _ _ upper lower (by omega)]
  omega

theorem symbol_third :
    symbol (((b &&& 0xf) <<< 2) ||| ((c &&& 0xc0) >>> 6)) =
      letter (Fin.ofNat 64 (b.toNat * 4 + c.toNat / 64)) := by
  apply symbol_eq
  have bound := c.toNat_lt
  have upper := toNat_field_up b 0xf 2 2 4 rfl rfl (by decide)
  have lower := toNat_field_down c 0xc0 6 6 2 rfl rfl
  rw [toNat_fields _ _ 2 _ _ upper lower (by omega)]
  omega

theorem symbol_fourth : symbol (c &&& 0x3f) = letter (Fin.ofNat 64 c.toNat) := by
  apply symbol_eq
  rw [UInt8.toNat_and]
  exact Nat.and_two_pow_sub_one_eq_mod c.toNat 6

theorem symbol_lastOfOne : symbol ((a &&& 0x3) <<< 4) = letter (Fin.ofNat 64 (a.toNat * 16)) := by
  apply symbol_eq
  rw [toNat_field_up a 0x3 4 4 2 rfl rfl (by decide)]
  omega

theorem symbol_lastOfTwo : symbol ((b &&& 0xf) <<< 2) = letter (Fin.ofNat 64 (b.toNat * 4)) := by
  apply symbol_eq
  rw [toNat_field_up b 0xf 2 2 4 rfl rfl (by decide)]
  omega

end Encoder

/-- The encoder writes one character for each group of six bits, and then the padding. -/
theorem encode_eq (bytes : List UInt8) :
    encode bytes = (sextets bytes).map letter ++ padding bytes.length := by
  induction bytes using encode.induct with
  | case1 => rfl
  | case2 a =>
      rw [encode, sextets, symbol_first, symbol_lastOfOne]
      rfl
  | case3 a b =>
      rw [encode, sextets, symbol_first, symbol_second, symbol_lastOfTwo]
      rfl
  | case4 a b c rest ih =>
      have same : padding (a :: b :: c :: rest).length = padding rest.length := by
        simp only [padding, List.length_cons, Nat.add_assoc, Nat.add_mod_right]
      rw [encode, sextets, symbol_first, symbol_second, symbol_third, symbol_fourth, ih, same]
      rfl

/-- What the decoder's table has for a character of the encoder: only the last differs. -/
theorem dectable_letter : ∀ group : Fin 64,
    dectable[(letter group).toNat]? = some (if group = 63 then -1 else Int8.ofNat group.val) := by
  decide +kernel

theorem letter_plain : ∀ group : Fin 64, letter group ∉ [0, 10, 32, equals] := by
  decide +kernel

theorem entry_group : ∀ group : Fin 64,
    Int8.ofNat group.val ≠ -1 ∧ (Int8.ofNat group.val).toUInt8 = UInt8.ofNat group.val := by
  decide +kernel

section Decoder

variable (u v w x : Fin 64)

theorem toNat_group : (UInt8.ofNat u.val).toNat = u.val := by
  rw [UInt8.toNat_ofNat']
  omega

theorem byte1_eq : byte1 (UInt8.ofNat u.val) (UInt8.ofNat v.val) = firstByte u v := by
  have upper : (UInt8.ofNat u.val <<< 2).toNat = 2 ^ 2 * u.val := by
    rw [UInt8.toNat_shiftLeft, toNat_group, Nat.shiftLeft_eq]
    change u.val * 2 ^ 2 % 2 ^ 8 = _
    omega
  have lower := toNat_field_down (UInt8.ofNat v.val) 0x30 4 4 2 rfl rfl
  apply UInt8.toNat.inj
  rw [byte1, toNat_fields _ _ 2 _ _ upper lower (by omega), toNat_group, firstByte, UInt8.toNat_ofNat']
  omega

theorem byte2_eq : byte2 (UInt8.ofNat v.val) (UInt8.ofNat w.val) = secondByte v w := by
  have upper := toNat_field_up (UInt8.ofNat v.val) 0xf 4 4 4 rfl rfl (by decide)
  have lower := toNat_field_down (UInt8.ofNat w.val) 0x3c 2 2 4 rfl rfl
  apply UInt8.toNat.inj
  rw [byte2, toNat_fields _ _ 4 _ _ upper lower (by omega), toNat_group, toNat_group, secondByte,
    UInt8.toNat_ofNat']
  omega

theorem byte3_eq : byte3 (UInt8.ofNat w.val) (UInt8.ofNat x.val) = thirdByte w x := by
  have upper := toNat_field_up (UInt8.ofNat w.val) 0x3 6 6 2 rfl rfl (by decide)
  apply UInt8.toNat.inj
  rw [byte3, toNat_fields _ _ 6 _ _ upper (toNat_group x) x.isLt, toNat_group, thirdByte, UInt8.toNat_ofNat']
  omega

end Decoder

/-- The decoder's table does not have this character. -/
def Unknown (c : UInt8) : Prop := dectable[c.toNat]? = some (-1)

theorem unknown_letter (group : Fin 64) (last : group = 63) : Unknown (letter group) := by
  rw [Unknown, dectable_letter, if_pos last]

theorem unknown_equals : Unknown equals := rfl

section Scanning

variable (padded : Bool) (dest : List UInt8) (i : Nat)

theorem scan_skip (c : UInt8) (rest : List UInt8) (unknown : Unknown c)
    (body : ¬ (padded = true ∧ c = equals)) (more : rest ≠ []) :
    scan padded dest i (c :: rest) = scan padded dest (i + 1) rest := by
  have value : dectable[c.toNat]? = some (-1) := unknown
  rw [scan, if_neg body, value]
  simp only [ne_eq, not_true_eq_false, if_false, more]

theorem scan_end (c : UInt8) (rest : List UInt8) (unknown : Unknown c)
    (ends : (padded = true ∧ c = equals) ∨ rest = []) :
    scan padded dest i (c :: rest) = .error (.returned dest (i + 1)) := by
  have value : dectable[c.toNat]? = some (-1) := unknown
  rw [scan, value]
  by_cases pad : padded = true ∧ c = equals
  · exact if_pos pad
  · rw [if_neg pad]
    simp only [ne_eq, not_true_eq_false, if_false, ends.resolve_left pad, if_true]

theorem scan_found (group : Fin 64) (known : group ≠ 63) (rest : List UInt8) :
    scan padded dest i (letter group :: rest) = .ok (UInt8.ofNat group.val, ⟨dest, i + 1, rest⟩) := by
  have value := dectable_letter group
  have body : letter group ≠ equals := fun same => letter_plain group (by simp [same])
  have entry := entry_group group
  rw [if_neg known] at value
  rw [scan, if_neg (fun pad => body pad.2), value]
  simp only [entry.1, ne_eq, not_false_eq_true, if_true, entry.2]

/-- A text of unknown characters only is the end of `decode`. -/
theorem scan_unknown (text : List UInt8) (unknown : ∀ c ∈ text, Unknown c) :
    ∃ j, scan padded dest i text = .error (.returned dest j) := by
  induction text generalizing i with
  | nil => exact ⟨i + 1, rfl⟩
  | cons c rest ih =>
      rw [List.forall_mem_cons] at unknown
      by_cases ends : (padded = true ∧ c = equals) ∨ rest = []
      · exact ⟨i + 1, scan_end padded dest i c rest unknown.1 ends⟩
      · rw [not_or] at ends
        rw [scan_skip padded dest i c rest unknown.1 ends.1 ends.2]
        exact ih (i + 1) unknown.2

theorem scan_past (front rest : List UInt8) (unknown : ∀ c ∈ front, Unknown c ∧ c ≠ equals)
    (group : Fin 64) (known : group ≠ 63) :
    ∃ j, scan padded dest i (front ++ letter group :: rest) =
      .ok (UInt8.ofNat group.val, ⟨dest, j, rest⟩) := by
  induction front generalizing i with
  | nil => exact ⟨i + 1, scan_found padded dest i group known rest⟩
  | cons c front ih =>
      rw [List.forall_mem_cons] at unknown
      rw [List.cons_append, scan_skip padded dest i c _ unknown.1.1 (fun pad => unknown.1.2 pad.2) (by simp)]
      exact ih (i + 1) unknown.2

end Scanning

/-- The groups whose character the decoder knows. -/
def kept (groups : List (Fin 64)) : List (Fin 64) := groups.filter fun group => group.val ≠ 63

theorem known_iff (group : Fin 64) : decide (group.val ≠ 63) = true ↔ group ≠ 63 := by
  rw [decide_eq_true_iff, Ne, Ne, Fin.ext_iff]
  rfl

section Groups

variable (padded : Bool) (dest : List UInt8) (i pads : Nat) (groups : List (Fin 64))

/-- The characters of the groups, in front of `pads` padding characters. -/
def padText (groups : List (Fin 64)) (pads : Nat) : List UInt8 :=
  groups.map letter ++ List.replicate pads equals

theorem scan_padText_none (none : kept groups = []) :
    ∃ j, scan padded dest i (padText groups pads) = .error (.returned dest j) := by
  apply scan_unknown
  intro c member
  rw [padText, List.mem_append, List.mem_map, List.mem_replicate] at member
  rcases member with ⟨group, inside, rfl⟩ | ⟨_, rfl⟩
  · have last := List.filter_eq_nil_iff.mp none group inside
    exact unknown_letter group (by simpa only [known_iff, ne_eq, not_not] using last)
  · exact unknown_equals

theorem scan_padText_some {group : Fin 64} {more : List (Fin 64)} (some : kept groups = group :: more) :
    ∃ j after, kept after = more ∧ scan padded dest i (padText groups pads) =
      .ok (UInt8.ofNat group.val, ⟨dest, j, padText after pads⟩) := by
  obtain ⟨front, after, rfl, skipped, known, rest⟩ := List.filter_eq_cons_iff.mp some
  have unknown : ∀ c ∈ front.map letter, Unknown c ∧ c ≠ equals := by
    intro c member
    obtain ⟨g, inside, rfl⟩ := List.mem_map.mp member
    have last := skipped g inside
    exact ⟨unknown_letter g (by simpa only [known_iff, ne_eq, not_not] using last),
      fun same => letter_plain g (by simp [same])⟩
  obtain ⟨j, found⟩ := scan_past padded dest i (front.map letter) (padText after pads) unknown group
    ((known_iff group).mp known)
  use j, after, rest
  rw [← found]
  simp only [padText, List.map_append, List.map_cons, List.append_assoc, List.cons_append]

end Groups

theorem decodeLoop_nil (dest : List UInt8) (i : Nat) : decodeLoop ⟨dest, i, []⟩ = .returned dest i := by
  rw [decodeLoop, if_pos rfl]

theorem decodeLoop_again {start after : Cursor} (again : round start = .ok after) :
    decodeLoop start = decodeLoop after := by
  have more : start.rest ≠ [] := by
    intro nothing
    have shorter := round_shorter again
    rw [nothing] at shorter
    exact Nat.not_lt_zero _ shorter
  rw [decodeLoop, if_neg more]
  split
  · next next step =>
      rw [again] at step
      cases step
      rfl
  · next exit step =>
      rw [again] at step
      cases step

theorem decodeLoop_exit {start : Cursor} {exit : Exit} (more : start.rest ≠ []) (ends : round start = .error exit) :
    decodeLoop start = exit := by
  rw [decodeLoop, if_neg more]
  split
  · next next step =>
      rw [ends] at step
      cases step
  · next other step =>
      rw [ends] at step
      cases step
      rfl

theorem padText_ne_nil {pads : Nat} {groups more : List (Fin 64)} {group : Fin 64}
    (some : kept groups = group :: more) : padText groups pads ≠ [] := by
  cases groups with
  | nil => cases some
  | cons first groups => exact List.cons_ne_nil _ _

/-- What the decoder makes of an encoder's text: the groups it does not know are gone,
and the others have moved up. -/
theorem decodeLoop_padText (pads : Nat) (groups : List (Fin 64)) (dest : List UInt8) (i : Nat) :
    ∃ j, decodeLoop ⟨dest, i, padText groups pads⟩ = .returned (dest ++ assemble (kept groups)) j := by
  induction shape : kept groups using assemble.induct generalizing groups dest i with
  | case1 =>
      rw [assemble, List.append_nil]
      by_cases nothing : padText groups pads = []
      · use i
        rw [nothing]
        exact decodeLoop_nil dest i
      · obtain ⟨j, scan1⟩ := scan_padText_none false dest i pads groups shape
        use j
        apply decodeLoop_exit nothing
        simp only [round, scan1, bind, Except.bind]
  | case2 u =>
      obtain ⟨i1, after1, kept1, scan1⟩ := scan_padText_some false dest i pads groups shape
      obtain ⟨j, scan2⟩ := scan_padText_none false dest i1 pads after1 kept1
      use j
      rw [assemble, List.append_nil]
      apply decodeLoop_exit (padText_ne_nil shape)
      simp only [round, scan1, scan2, bind, Except.bind]
  | case3 u v =>
      obtain ⟨i1, after1, kept1, scan1⟩ := scan_padText_some false dest i pads groups shape
      obtain ⟨i2, after2, kept2, scan2⟩ := scan_padText_some false dest i1 pads after1 kept1
      obtain ⟨j, scan3⟩ := scan_padText_none true (dest ++ [firstByte u v]) i2 pads after2 kept2
      use j
      apply decodeLoop_exit (padText_ne_nil shape)
      simp only [round, scan1, scan2, byte1_eq, scan3, bind, Except.bind, assemble]
  | case4 u v w =>
      obtain ⟨i1, after1, kept1, scan1⟩ := scan_padText_some false dest i pads groups shape
      obtain ⟨i2, after2, kept2, scan2⟩ := scan_padText_some false dest i1 pads after1 kept1
      obtain ⟨i3, after3, kept3, scan3⟩ :=
        scan_padText_some true (dest ++ [firstByte u v]) i2 pads after2 kept2
      obtain ⟨j, scan4⟩ :=
        scan_padText_none true (dest ++ [firstByte u v] ++ [secondByte v w]) i3 pads after3 kept3
      have stop : round ⟨dest, i, padText groups pads⟩ =
          .error (.returned (dest ++ [firstByte u v] ++ [secondByte v w]) j) := by
        simp only [round, scan1, scan2, byte1_eq, scan3, byte2_eq, scan4, bind, Except.bind]
      use j
      rw [decodeLoop_exit (padText_ne_nil shape) stop, List.append_assoc]
      rfl
  | case5 u v w x rest ih =>
      obtain ⟨i1, after1, kept1, scan1⟩ := scan_padText_some false dest i pads groups shape
      obtain ⟨i2, after2, kept2, scan2⟩ := scan_padText_some false dest i1 pads after1 kept1
      obtain ⟨i3, after3, kept3, scan3⟩ :=
        scan_padText_some true (dest ++ [firstByte u v]) i2 pads after2 kept2
      obtain ⟨i4, after4, kept4, scan4⟩ :=
        scan_padText_some true (dest ++ [firstByte u v] ++ [secondByte v w]) i3 pads after3 kept3
      have again : round ⟨dest, i, padText groups pads⟩ =
          .ok ⟨dest ++ [firstByte u v] ++ [secondByte v w] ++ [thirdByte w x], i4, padText after4 pads⟩ := by
        simp only [round, scan1, scan2, byte1_eq, scan3, byte2_eq, scan4, byte3_eq, bind, Except.bind, pure,
          Except.pure]
      obtain ⟨j, returned⟩ :=
        ih after4 (dest ++ [firstByte u v] ++ [secondByte v w] ++ [thirdByte w x]) i4 kept4
      use j
      rw [decodeLoop_again again, returned]
      simp only [assemble, List.append_assoc, List.cons_append, List.nil_append]

theorem scan_padding (pads : Nat) (dest : List UInt8) (i : Nat) :
    scan true dest i (padText [] pads) = .error (.returned dest (i + 1)) := by
  cases pads with
  | zero => rfl
  | succ pads => exact scan_end true dest i equals _ unknown_equals (Or.inl ⟨rfl, rfl⟩)

theorem padText_cons (group : Fin 64) (groups : List (Fin 64)) (pads : Nat) :
    padText (group :: groups) pads = letter group :: padText groups pads := rfl

/-- Where no group is lost, the decoder reads each character once, and the first
padding character or the terminator behind an unfinished four. -/
theorem decodeLoop_known (pads : Nat) (groups : List (Fin 64)) (dest : List UInt8) (i : Nat)
    (known : 63 ∉ groups) (full : groups.length % 4 = 0 → pads = 0) (cut : groups.length % 4 ≠ 1) :
    decodeLoop ⟨dest, i, padText groups pads⟩ =
      .returned (dest ++ assemble groups) (i + groups.length + if groups.length % 4 = 0 then 0 else 1) := by
  induction groups using assemble.induct generalizing dest i with
  | case1 =>
      rw [full rfl, assemble, List.append_nil]
      exact decodeLoop_nil dest i
  | case2 u => exact absurd rfl cut
  | case3 u v =>
      simp only [List.mem_cons, List.not_mem_nil, or_false, not_or] at known
      apply decodeLoop_exit (List.cons_ne_nil _ _)
      simp only [round, padText_cons, scan_found _ _ _ u (Ne.symm known.1), scan_found _ _ _ v (Ne.symm known.2),
        scan_padding, byte1_eq, bind, Except.bind]
      rfl
  | case4 u v w =>
      simp only [List.mem_cons, List.not_mem_nil, or_false, not_or] at known
      have stop : round ⟨dest, i, padText [u, v, w] pads⟩ =
          .error (.returned (dest ++ [firstByte u v] ++ [secondByte v w]) (i + 1 + 1 + 1 + 1)) := by
        simp only [round, padText_cons, scan_found _ _ _ u (Ne.symm known.1),
          scan_found _ _ _ v (Ne.symm known.2.1), scan_found _ _ _ w (Ne.symm known.2.2), scan_padding, byte1_eq,
          byte2_eq, bind, Except.bind]
      rw [decodeLoop_exit (List.cons_ne_nil _ _) stop, List.append_assoc]
      rfl
  | case5 u v w x rest ih =>
      simp only [List.mem_cons, not_or] at known
      have again : round ⟨dest, i, padText (u :: v :: w :: x :: rest) pads⟩ =
          .ok ⟨dest ++ [firstByte u v] ++ [secondByte v w] ++ [thirdByte w x], i + 1 + 1 + 1 + 1,
            padText rest pads⟩ := by
        simp only [round, padText_cons, scan_found _ _ _ u (Ne.symm known.1),
          scan_found _ _ _ v (Ne.symm known.2.1), scan_found _ _ _ w (Ne.symm known.2.2.1),
          scan_found _ _ _ x (Ne.symm known.2.2.2.1), byte1_eq, byte2_eq, byte3_eq, bind, Except.bind, pure,
          Except.pure]
      have length : (u :: v :: w :: x :: rest).length = rest.length + 4 := rfl
      rw [length, Nat.add_mod_right] at full cut
      have index : i + 1 + 1 + 1 + 1 + rest.length = i + (rest.length + 4) := by omega
      rw [decodeLoop_again again, ih _ _ known.2.2.2.2 full cut, length, Nat.add_mod_right, index]
      simp only [assemble, List.append_assoc, List.cons_append, List.nil_append]

/-- Decoding a text of the encoder yields the bytes of the groups that are not 63. -/
theorem decode_encode_value {bytes out : List UInt8} (decoded : decode (encode bytes) = some out) :
    out = assemble (kept (sextets bytes)) := by
  obtain ⟨j, returned⟩ := decodeLoop_padText ((3 - bytes.length % 3) % 3) (sextets bytes) [] 0
  rw [encode_eq, padding, ← padText, decode, returned] at decoded
  simp only [List.nil_append] at decoded
  split at decoded
  · exact (Option.some.inj decoded).symm
  · cases decoded

theorem kept_sublist (groups : List (Fin 64)) : (kept groups).Sublist groups := List.filter_sublist

theorem kept_eq_iff (groups : List (Fin 64)) : kept groups = groups ↔ 63 ∉ groups := by
  rw [kept, List.filter_eq_self]
  constructor
  · intro all inside
    exact (known_iff 63).mp (all 63 inside) rfl
  · intro known group inside
    exact (known_iff group).mpr fun same => known (same ▸ inside)

/-- Where no group is lost, only the index can fail. -/
theorem decode_encode_known (bytes : List UInt8) (known : 63 ∉ sextets bytes) :
    decode (encode bytes) = if bytes.length ≤ 1610612734 then some bytes else none := by
  have groups := sextets_length bytes
  have returned := decodeLoop_known ((3 - bytes.length % 3) % 3) (sextets bytes) [] 0 known
    (by omega) (by omega)
  rw [encode_eq, padding, ← padText, decode, returned, assemble_sextets]
  have fits : (0 + (sextets bytes).length + if (sextets bytes).length % 4 = 0 then 0 else 1) ≤ intMax ↔
      bytes.length ≤ 1610612734 := by
    rw [groups, intMax]
    split <;> omega
  simp only [fits, List.nil_append]

/-- The bytes come back exactly where none of their groups is the one the two tables
disagree on, and the encoded text is not too long for the index. -/
theorem decode_encode_iff (b : List UInt8) :
    decode (encodeFromArray b (UInt32.ofNat b.length)) = some b ↔
      63 ∉ sextets b ∧ b.length ≤ 1610612734 := by
  rw [encodeFromArray, UInt32.toNat_ofNat']
  constructor
  · intro decoded
    have value := decode_encode_value decoded
    have part := kept_sublist (sextets (b.take (b.length % 2 ^ 32)))
    -- A longer string is cut by the conversion of its length.
    have whole : b.take (b.length % 2 ^ 32) = b := by
      have filled := assemble_length (kept (sextets (b.take (b.length % 2 ^ 32))))
      have cut := sextets_length (b.take (b.length % 2 ^ 32))
      have fewer := part.length_le
      rw [← value] at filled
      rw [List.length_take] at cut
      apply List.take_of_length_le
      omega
    rw [whole] at decoded value part
    have known : 63 ∉ sextets b := (kept_eq_iff _).mp ((assemble_sublist_iff b _ part).mp value.symm)
    rw [decode_encode_known b known] at decoded
    split at decoded
    · next short => exact ⟨known, short⟩
    · cases decoded
  · intro both
    rw [List.take_of_length_le (by omega), decode_encode_known b both.1, if_pos both.2]

theorem letter_injective : Function.Injective letter := by
  intro u v same
  have entries := dectable_letter u
  rw [same, dectable_letter v] at entries
  have values : ∀ u v : Fin 64, (if v = 63 then -1 else Int8.ofNat v.val) =
      (if u = 63 then -1 else Int8.ofNat u.val) → u = v := by
    decide +kernel
  exact values u v (Option.some.inj entries)

/-- No encoded text has a NUL, a newline or a space. -/
theorem encode_plain {bytes : List UInt8} {c : UInt8} (member : c ∈ encode bytes) : c ∉ [0, 10, 32] := by
  rw [encode_eq, List.mem_append, List.mem_map, padding, List.mem_replicate] at member
  rcases member with ⟨group, _, rfl⟩ | ⟨_, rfl⟩
  · intro special
    exact letter_plain group (List.mem_append_left [equals] special)
  · decide

theorem encode_length (bytes : List UInt8) : (encode bytes).length = (bytes.length + 2) / 3 * 4 := by
  rw [encode_eq, List.length_append, List.length_map, sextets_length, padding, List.length_replicate]
  omega

/-- Texts of one length are told apart, whatever the decoder makes of them. -/
theorem encode_inj {front back : List UInt8} (same : encode front = encode back)
    (lengths : front.length = back.length) : front = back := by
  rw [encode_eq, encode_eq, lengths] at same
  have groups := List.append_cancel_right same
  exact sextets_injective (List.map_injective_iff.mpr letter_injective groups)

/-- The byte 255 is lost. -/
theorem decode_encode_fails : ¬ decode (encodeFromArray [255] 1) = some [255] := by
  intro decoded
  have value := decode_encode_value decoded
  revert value
  decide

end GameServer.Base64
