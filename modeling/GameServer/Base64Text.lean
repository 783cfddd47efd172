import GameServer.Base64

set_option autoImplicit false

/- The decoder on any text: it makes the bytes of the groups it knows, up to the first
padding character where padding may stand. -/
namespace GameServer.Base64

open Base

/-- The six bits a known entry of the table stands for. -/
def groupOf (value : Int8) : Fin 64 := ⟨value.toUInt8.toNat % 64, Nat.mod_lt _ (by decide)⟩

/-- The groups of six bits in a text in front of which `k` (mod 4) have been read; nothing
when a byte outside of the table is met. Behind two or three groups of a four the text
ends at a padding character. -/
def groups : Nat → List UInt8 → Option (List (Fin 64))
  | _, [] => some []
  | k, c :: rest =>
      if 2 ≤ k ∧ c = equals then some []
      else (dectable[c.toNat]?).bind fun value =>
        if value = -1 then groups k rest
        else (groups ((k + 1) % 4) rest).map fun more => groupOf value :: more

/-- How a search for the next group ends. -/
inductive Scanned (k : Nat) (dest : List UInt8) (i : Nat) (text : List UInt8) :
    Except Exit (UInt8 × Cursor) → Prop where
  | found (group : Fin 64) (j : Nat) (rest : List UInt8) (bound : j + rest.length ≤ i + text.length)
      (more : groups k text = (groups ((k + 1) % 4) rest).map fun more => group :: more) :
      Scanned k dest i text (.ok (UInt8.ofNat group.val, ⟨dest, j, rest⟩))
  | ended (j : Nat) (bound : j ≤ i + text.length + 1) (none : groups k text = some []) :
      Scanned k dest i text (.error (.returned dest j))
  | outside (left : groups k text = none) : Scanned k dest i text (.error .outside)

/-- What the table has for a character it knows is a group. -/
theorem entry_known {c : UInt8} {value : Int8} (entry : dectable[c.toNat]? = some value) (known : value ≠ -1) :
    value.toUInt8 = UInt8.ofNat (groupOf value).val := by
  have all : ∀ value ∈ dectable, value ≠ -1 →
      value.toUInt8 = UInt8.ofNat (groupOf value).val := by
    decide +kernel
  exact all value (List.mem_of_getElem? entry) known

theorem scanned (k : Nat) (dest : List UInt8) (i : Nat) (text : List UInt8) :
    Scanned k dest i text (scan (decide (2 ≤ k)) dest i text) := by
  induction text generalizing i with
  | nil => exact .ended (i + 1) (Nat.le_refl _) rfl
  | cons c rest ih =>
      by_cases pad : 2 ≤ k ∧ c = equals
      · have ends : scan (decide (2 ≤ k)) dest i (c :: rest) = .error (.returned dest (i + 1)) := by
          rw [scan, if_pos ⟨decide_eq_true pad.1, pad.2⟩]
        rw [ends]
        exact .ended (i + 1) (by omega) (by rw [groups, if_pos pad])
      · have body : ¬ (decide (2 ≤ k) = true ∧ c = equals) := by rwa [decide_eq_true_eq]
        cases entry : dectable[c.toNat]? with
        | none =>
            have left : scan (decide (2 ≤ k)) dest i (c :: rest) = .error .outside := by rw [scan, if_neg body, entry]
            rw [left]
            exact .outside (by rw [groups, if_neg pad, entry, Option.bind_none])
        | some value =>
            by_cases known : value = -1
            · subst known
              have skipped : groups k (c :: rest) = groups k rest := by
                rw [groups, if_neg pad, entry, Option.bind_some, if_pos rfl]
              by_cases last : rest = []
              · rw [scan_end _ _ _ c rest entry (Or.inr last)]
                refine .ended (i + 1) (by omega) ?_
                rw [skipped, last, groups]
              · rw [scan_skip _ _ _ c rest entry body last]
                have later := ih (i + 1)
                revert later
                generalize scan (decide (2 ≤ k)) dest (i + 1) rest = result
                intro later
                have length : (c :: rest).length = rest.length + 1 := rfl
                cases later with
                | found group j left bound more => exact .found group j left (by omega) (skipped.trans more)
                | ended j bound none => exact .ended j (by omega) (skipped.trans none)
                | outside left => exact .outside (skipped.trans left)
            · have found :
                  scan (decide (2 ≤ k)) dest i (c :: rest) = .ok (value.toUInt8, ⟨dest, i + 1, rest⟩) := by
                rw [scan, if_neg body, entry]
                exact if_pos known
              rw [found, entry_known entry known]
              refine .found _ (i + 1) rest (by rw [List.length_cons]; omega) ?_
              rw [groups, if_neg pad, entry, Option.bind_some, if_neg known]

/-- How a round of the decoder ends: with three bytes of four groups, with the bytes of the
last groups, or outside of the table. -/
inductive Rounded (dest : List UInt8) (i : Nat) (text : List UInt8) : Except Exit Cursor → Prop where
  | again (u v w x : Fin 64) (j : Nat) (rest : List UInt8) (bound : j + rest.length ≤ i + text.length)
      (more : groups 0 text = (groups 0 rest).map fun more => u :: v :: w :: x :: more) :
      Rounded dest i text (.ok ⟨dest ++ [firstByte u v] ++ [secondByte v w] ++ [thirdByte w x], j, rest⟩)
  | ended (last : List (Fin 64)) (out : List UInt8) (filled : out = dest ++ assemble last) (j : Nat)
      (bound : j ≤ i + text.length + 1) (none : groups 0 text = some last) :
      Rounded dest i text (.error (.returned out j))
  | outside (left : groups 0 text = none) : Rounded dest i text (.error .outside)

theorem rounded (dest : List UInt8) (i : Nat) (text : List UInt8) : Rounded dest i text (round ⟨dest, i, text⟩) := by
  have scan1 : Scanned 0 dest i text (scan false dest i text) := scanned 0 dest i text
  unfold round
  generalize scan false dest i text = result1 at scan1
  cases scan1 with
  | outside left => exact .outside left
  | ended j bound none => exact .ended [] dest (List.append_nil dest).symm j bound none
  | found u i1 text1 bound1 more1 =>
      have scan2 : Scanned 1 dest i1 text1 (scan false dest i1 text1) := scanned 1 dest i1 text1
      simp only [bind, Except.bind]
      generalize scan false dest i1 text1 = result2 at scan2
      cases scan2 with
      | outside left => exact .outside (by rw [more1, left]; rfl)
      | ended j bound none =>
          exact .ended [u] dest (List.append_nil dest).symm j (by omega) (by rw [more1, none]; rfl)
      | found v i2 text2 bound2 more2 =>
          have scan3 : Scanned 2 (dest ++ [firstByte u v]) i2 text2 (scan true (dest ++ [firstByte u v]) i2 text2) :=
            scanned 2 (dest ++ [firstByte u v]) i2 text2
          simp only [byte1_eq]
          generalize scan true (dest ++ [firstByte u v]) i2 text2 = result3 at scan3
          cases scan3 with
          | outside left => exact .outside (by rw [more1, more2, left]; rfl)
          | ended j bound none => exact .ended [u, v] _ rfl j (by omega) (by rw [more1, more2, none]; rfl)
          | found w i3 text3 bound3 more3 =>
              have scan4 : Scanned 3 (dest ++ [firstByte u v] ++ [secondByte v w]) i3 text3
                  (scan true (dest ++ [firstByte u v] ++ [secondByte v w]) i3 text3) := scanned 3 _ i3 text3
              simp only [byte2_eq]
              generalize scan true (dest ++ [firstByte u v] ++ [secondByte v w]) i3 text3 = result4 at scan4
              cases scan4 with
              | outside left => exact .outside (by rw [more1, more2, more3, left]; rfl)
              | ended j bound none =>
                  exact .ended [u, v, w] _ (List.append_assoc ..) j (by omega) (by rw [more1, more2, more3, none]; rfl)
              | found x i4 text4 bound4 more4 =>
                  simp only [byte3_eq]
                  refine .again u v w x i4 text4 (by omega) ?_
                  rw [more1, more2, more3, more4]
                  simp only [Option.map_map]
                  rfl

/-- How the decoder ends on the groups of its text. -/
inductive Decoded (dest : List UInt8) (bound : Nat) : Option (List (Fin 64)) → Exit → Prop where
  | returned (all : List (Fin 64)) (out : List UInt8) (filled : out = dest ++ assemble all) (j : Nat)
      (inside : j ≤ bound) :
      Decoded dest bound (some all) (.returned out j)
  | outside : Decoded dest bound none .outside

theorem decodeLoop_groups (text : List UInt8) (dest : List UInt8) (i : Nat) :
    Decoded dest (i + text.length + 1) (groups 0 text) (decodeLoop ⟨dest, i, text⟩) := by
  induction size : text.length using Nat.strongRecOn generalizing text dest i with
  | ind size ih =>
      subst size
      by_cases nothing : text = []
      · subst nothing
        rw [decodeLoop_nil, groups]
        exact .returned [] dest (List.append_nil dest).symm i (by omega)
      · have ends := rounded dest i text
        generalize stepped : round ⟨dest, i, text⟩ = result at ends
        cases ends with
        | outside left =>
            rw [left, decodeLoop_exit nothing stepped]
            exact .outside
        | ended last out filled j bound none =>
            rw [none, decodeLoop_exit nothing stepped]
            exact .returned last out filled j bound
        | again u v w x j rest bound more =>
            rw [more, decodeLoop_again stepped]
            have shorter := round_shorter stepped
            have later := ih rest.length shorter rest
              (dest ++ [firstByte u v] ++ [secondByte v w] ++ [thirdByte w x]) j rfl
            generalize decodeLoop ⟨_, j, rest⟩ = exit at later
            cases found : groups 0 rest with
            | none =>
                rw [found] at later
                cases later
                exact .outside
            | some all =>
                rw [found] at later
                cases later with
                | returned _ out filled k inside =>
                    refine .returned _ out ?_ k (by omega)
                    rw [filled]
                    simp only [assemble, List.append_assoc, List.cons_append, List.nil_append]

/-- On every text that is not too long for the index, the decoder makes the bytes of the
groups in it, and fails exactly where it meets a byte outside of its table. -/
theorem decode_groups (s : List UInt8) (short : s.length < intMax) : decode s = (groups 0 s).map assemble := by
  have ends := decodeLoop_groups s [] 0
  rw [decode]
  generalize decodeLoop ⟨[], 0, s⟩ = exit at ends
  generalize groups 0 s = found at ends
  cases ends with
  | outside => rfl
  | returned all out filled j inside =>
      have fits : j ≤ intMax := by omega
      simp only [fits, if_true, filled, List.nil_append, Option.map_some]

/-- `=T Q=x` -/
theorem decode_groups_padded : decode [61, 84, 32, 81, 61, 120] = some [77] :=
  (decode_groups [61, 84, 32, 81, 61, 120] (by decide)).trans (by decide +kernel)

end GameServer.Base64
