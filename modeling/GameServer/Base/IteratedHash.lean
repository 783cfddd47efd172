import Mathlib.Data.List.Infix

set_option autoImplicit false

/- Hash functions that iterate a compression function over blocks of one size: what has been
compressed so far, and the items that wait until their block is full. -/
namespace Base

structure Absorbed (Chain α : Type) where
  chain : Chain
  pending : List α

namespace Absorbed

section Absorb

variable {Chain α : Type} (compress : Chain → List α → Chain) (size : Nat)

def push (state : Absorbed Chain α) (item : α) : Absorbed Chain α :=
  if state.pending.length + 1 = size then ⟨compress state.chain (state.pending ++ [item]), []⟩
  else ⟨state.chain, state.pending ++ [item]⟩

def absorb (state : Absorbed Chain α) (items : List α) : Absorbed Chain α :=
  items.foldl (push compress size) state

theorem absorb_append (state : Absorbed Chain α) (first second : List α) :
    absorb compress size state (first ++ second) =
      absorb compress size (absorb compress size state first) second :=
  List.foldl_append

/-- Items wait as long as they leave the block open. -/
theorem absorb_waits (state : Absorbed Chain α) (items : List α)
    (open_block : state.pending.length + items.length < size) :
    absorb compress size state items = ⟨state.chain, state.pending ++ items⟩ := by
  induction items generalizing state with
  | nil => rw [absorb, List.foldl_nil, List.append_nil]
  | cons item items ih =>
      rw [List.length_cons] at open_block
      have waits : push compress size state item = ⟨state.chain, state.pending ++ [item]⟩ := by
        rw [push, if_neg (by omega)]
      rw [absorb, List.foldl_cons, waits, ← absorb, ih, List.append_assoc, List.singleton_append]
      rw [List.length_append, List.length_singleton]
      omega

theorem push_fills (state : Absorbed Chain α) (item : α) (last : state.pending.length + 1 = size) :
    push compress size state item = ⟨compress state.chain (state.pending ++ [item]), []⟩ := by
  rw [push, if_pos last]

/-- The items that fill a block have it compressed. -/
theorem absorb_fills (state : Absorbed Chain α) (items : List α) (inside : state.pending.length < size)
    (full : state.pending.length + items.length = size) :
    absorb compress size state items = ⟨compress state.chain (state.pending ++ items), []⟩ := by
  rcases List.eq_nil_or_concat items with rfl | ⟨front, last, rfl⟩
  · rw [List.length_nil] at full
    omega
  · rw [List.concat_eq_append] at full ⊢
    rw [List.length_append, List.length_singleton] at full
    have fills := push_fills compress size ⟨state.chain, state.pending ++ front⟩ last
      (by rw [List.length_append]; omega)
    rw [List.append_assoc] at fills
    rw [absorb_append, absorb_waits compress size state front (by omega), ← fills]
    rfl

theorem push_pending_length (state : Absorbed Chain α) (item : α) (inside : state.pending.length < size) :
    (push compress size state item).pending.length = (state.pending.length + 1) % size := by
  by_cases last : state.pending.length + 1 = size
  · rw [push, if_pos last, last, Nat.mod_self, List.length_nil]
  · rw [push, if_neg last, List.length_append, List.length_singleton, Nat.mod_eq_of_lt (by omega)]

theorem absorb_pending_length (state : Absorbed Chain α) (items : List α) (inside : state.pending.length < size) :
    (absorb compress size state items).pending.length = (state.pending.length + items.length) % size := by
  induction items generalizing state with
  | nil => rw [absorb, List.foldl_nil, List.length_nil, Nat.add_zero, Nat.mod_eq_of_lt inside]
  | cons item items ih =>
      have next := push_pending_length compress size state item inside
      have bound : (push compress size state item).pending.length < size := by
        rw [next]
        exact Nat.mod_lt _ (by omega)
      rw [absorb, List.foldl_cons, ← absorb, ih _ bound, next, Nat.mod_add_mod, List.length_cons]
      congr 1
      omega

theorem absorb_blocks (chain : Chain) (blocks : List (List α)) (positive : 0 < size)
    (whole : ∀ block ∈ blocks, block.length = size) :
    absorb compress size ⟨chain, []⟩ blocks.flatten = ⟨blocks.foldl compress chain, []⟩ := by
  induction blocks generalizing chain with
  | nil => rfl
  | cons block blocks ih =>
      have length := whole block List.mem_cons_self
      have first := absorb_fills compress size ⟨chain, []⟩ block positive
        (by rw [List.length_nil, Nat.zero_add, length])
      rw [List.flatten_cons, absorb_append, first, List.nil_append, List.foldl_cons]
      exact ih _ fun other member => whole other (List.mem_cons_of_mem _ member)

end Absorb

section Collision

variable {Chain α : Type} (compress : Chain → List α → Chain) (size : Nat)

theorem exists_blocks (items : List α) (count : Nat) (aligned : items.length = size * count) :
    ∃ blocks : List (List α), (∀ block ∈ blocks, block.length = size) ∧ blocks.flatten = items := by
  induction count generalizing items with
  | zero =>
      rw [Nat.mul_zero, List.length_eq_zero_iff] at aligned
      exact ⟨[], fun _ member => (List.not_mem_nil member).elim, by rw [aligned, List.flatten_nil]⟩
  | succ count ih =>
      rw [Nat.mul_succ] at aligned
      obtain ⟨blocks, whole, flat⟩ := ih (items.drop size) (by rw [List.length_drop]; omega)
      use items.take size :: blocks
      constructor
      · intro block member
        rcases List.mem_cons.mp member with rfl | later
        · rw [List.length_take]
          omega
        · exact whole block later
      · rw [List.flatten_cons, flat, List.take_append_drop]

/-- While `items` are absorbed, `block` is compressed into `chain`. -/
structure Meets (start : Chain) (items : List α) (chain : Chain) (block : List α) : Prop where
  length : block.length = size
  reached : ∃ front back, items = front ++ block ++ back ∧ absorb compress size ⟨start, []⟩ front = ⟨chain, []⟩

/-- Two streams make the compression function collide with itself. -/
def Collide (start : Chain) (items others : List α) : Prop :=
  ∃ chain block chain' block', Meets compress size start items chain block ∧
    Meets compress size start others chain' block' ∧ (chain, block) ≠ (chain', block') ∧
    compress chain block = compress chain' block'

variable {compress size}

theorem Meets.append {start chain : Chain} {items block : List α} (meets : Meets compress size start items chain block)
    (later : List α) : Meets compress size start (items ++ later) chain block := by
  obtain ⟨front, back, whole, reached⟩ := meets.reached
  exact ⟨meets.length, front, back ++ later, by rw [whole, List.append_assoc (front ++ block)], reached⟩

theorem Collide.append {start : Chain} {items others : List α} (collide : Collide compress size start items others)
    (later after : List α) : Collide compress size start (items ++ later) (others ++ after) := by
  obtain ⟨chain, block, chain', block', meets, meets', different, same⟩ := collide
  exact ⟨chain, block, chain', block', meets.append later, meets'.append after, different, same⟩

theorem meets_last (start : Chain) (blocks : List (List α)) (block : List α) (positive : 0 < size)
    (whole : ∀ other ∈ blocks ++ [block], other.length = size) :
    Meets compress size start (blocks.flatten ++ block) (blocks.foldl compress start) block where
  length := whole block (List.mem_append_right _ List.mem_cons_self)
  reached := ⟨blocks.flatten, [], (List.append_nil _).symm,
    absorb_blocks compress size start blocks positive fun other member => whole other (List.mem_append_left _ member)⟩

/-- Behind equal ends, two lists of blocks differ at some last place, and there the
compression function collides. -/
theorem collide_blocks (start : Chain) (blocks others : List (List α)) (positive : 0 < size)
    (whole : ∀ block ∈ blocks, block.length = size) (whole' : ∀ block ∈ others, block.length = size)
    (same : blocks.foldl compress start = others.foldl compress start)
    (notEnd : ¬ blocks <:+ others) (notEnd' : ¬ others <:+ blocks) :
    Collide compress size start blocks.flatten others.flatten := by
  induction blocks using List.reverseRecOn generalizing others with
  | nil => exact absurd List.nil_suffix notEnd
  | append_singleton blocks block ih =>
      rcases List.eq_nil_or_concat others with rfl | ⟨others, other, rfl⟩
      · exact absurd List.nil_suffix notEnd'
      · rw [List.concat_eq_append] at *
        rw [List.foldl_append, List.foldl_append, List.foldl_cons, List.foldl_cons, List.foldl_nil,
          List.foldl_nil] at same
        rw [List.flatten_append, List.flatten_append, List.flatten_singleton, List.flatten_singleton]
        by_cases equal : (blocks.foldl compress start, block) = (others.foldl compress start, other)
        · have last : block = other := congrArg Prod.snd equal
          have earlier := ih others (fun b member => whole b (List.mem_append_left _ member))
            (fun b member => whole' b (List.mem_append_left _ member)) (congrArg Prod.fst equal)
            (fun part => notEnd (List.suffix_concat_iff.mpr (Or.inr ⟨blocks, by rw [last], part⟩)))
            (fun part => notEnd' (List.suffix_concat_iff.mpr (Or.inr ⟨others, by rw [last], part⟩)))
          exact earlier.append block other
        · exact ⟨_, block, _, other, meets_last start blocks block positive whole,
            meets_last start others other positive whole', equal, same⟩

theorem flatten_suffix {front back : List (List α)} (part : front <:+ back) : front.flatten <:+ back.flatten := by
  obtain ⟨before, rfl⟩ := part
  rw [List.flatten_append]
  exact List.suffix_append _ _

/-- Two streams of whole blocks, neither of them an end of the other, reach the same value
only through a collision of the compression function. -/
theorem collide_of_absorb (start : Chain) (items others : List α) (positive : 0 < size)
    (aligned : size ∣ items.length) (aligned' : size ∣ others.length)
    (same : (absorb compress size ⟨start, []⟩ items).chain = (absorb compress size ⟨start, []⟩ others).chain)
    (notEnd : ¬ items <:+ others) (notEnd' : ¬ others <:+ items) : Collide compress size start items others := by
  obtain ⟨count, length⟩ := aligned
  obtain ⟨count', length'⟩ := aligned'
  obtain ⟨blocks, whole, rfl⟩ := exists_blocks size items count length
  obtain ⟨blocks', whole', rfl⟩ := exists_blocks size others count' length'
  rw [absorb_blocks compress size start blocks positive whole,
    absorb_blocks compress size start blocks' positive whole'] at same
  exact collide_blocks start blocks blocks' positive whole whole' same
    (fun part => notEnd (flatten_suffix part)) (fun part => notEnd' (flatten_suffix part))

end Collision

end Absorbed

end Base
