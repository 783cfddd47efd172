import GameServer.Base.Transition
import Mathlib.Data.List.Perm.Basic

set_option autoImplicit false

/- One stream socket with composed writes outstanding on it: each issues one partial
write at a time and issues it again for what is left. The partial writes of a socket
are carried out in the order they were issued. A write has a pointer to its buffer and
no copy of it: a partial write moves what lies there, in `memory`, at that time. -/
namespace Base.ComposedWrite

variable {ι α : Type}

/-- A write operation, and how much of its buffer it has written. -/
structure Op (ι : Type) where
  item : ι
  done : Nat
  deriving DecidableEq

/-- What is still to be written, where `bytes` are the contents of the buffers. -/
def Op.rest (bytes : ι → List α) (op : Op ι) : List α := (bytes op.item).drop op.done

structure Socket (ι α : Type) where
  issued : List (Op ι)
  /-- Partly written, and not issued again yet. -/
  resuming : List (Op ι)
  stream : List α
  started : List ι

def Socket.idle : Socket ι α := ⟨[], [], [], []⟩

inductive Event (ι : Type) where
  | start (item : ι)
  /-- The first partial write in the queue moves `count` bytes. -/
  | transfer (count : Nat)
  | resume (index : Nat)

namespace Socket

def outstanding (s : Socket ι α) : List (Op ι) := s.resuming ++ s.issued

section Steps

variable (memory : ι → List α)

/-- A partial write moves at least one byte, unless there is none. -/
def enabled (s : Socket ι α) : Event ι → Prop
  | .start _ => True
  | .transfer count => ∃ op ∈ s.issued.head?, count ≤ (op.rest memory).length ∧ (0 < count ∨ op.rest memory = [])
  | .resume index => index < s.resuming.length

def next (s : Socket ι α) : Event ι → Socket ι α
  | .start item => { s with issued := s.issued ++ [⟨item, 0⟩], started := s.started ++ [item] }
  | .transfer count =>
      match s.issued with
      | [] => s
      | op :: later =>
          { s with
            issued := later
            resuming :=
              if count < (op.rest memory).length then s.resuming ++ [⟨op.item, op.done + count⟩] else s.resuming
            stream := s.stream ++ (op.rest memory).take count }
  | .resume index => { s with issued := s.issued ++ s.resuming[index]?.toList, resuming := s.resuming.eraseIdx index }

end Steps

/-- The stream is made of whole items, each started one once, up to the end of what
has been written; with nothing outstanding it is exactly that. -/
def Whole (bytes : ι → List α) (s : Socket ι α) : Prop :=
  ∃ order : List ι, order.Perm s.started ∧ s.stream <+: order.flatMap bytes ∧
    (s.outstanding = [] → s.stream = order.flatMap bytes)

/-- The step does not let another write in between two parts of one: none is started
before the rest is issued again, and none is outstanding when a part is left over. -/
def Unsplit (memory : ι → List α) (s : Socket ι α) : Event ι → Prop
  | .start _ => s.resuming = []
  | .transfer count => ∀ op ∈ s.issued.head?, count < (op.rest memory).length → s.outstanding.length = 1
  | .resume _ => True

/-- The buffer that the step reads holds `bytes`. -/
def Kept (bytes memory : ι → List α) (s : Socket ι α) : Event ι → Prop
  | .transfer _ => ∀ op ∈ s.issued.head?, memory op.item = bytes op.item
  | _ => True

/-- With nothing let in between and the buffers kept, the bytes written and those
outstanding are the items in the order they were started. -/
structure InOrder (bytes : ι → List α) (s : Socket ι α) : Prop where
  alone : s.resuming = [] ∨ s.issued = [] ∧ s.resuming.length = 1
  bytes_eq : s.stream ++ s.outstanding.flatMap (Op.rest bytes) = s.started.flatMap bytes

theorem InOrder.idle (bytes : ι → List α) : InOrder bytes (Socket.idle : Socket ι α) := ⟨Or.inl rfl, rfl⟩

theorem InOrder.whole {bytes : ι → List α} {s : Socket ι α} (order : InOrder bytes s) : s.Whole bytes := by
  refine ⟨s.started, List.Perm.refl _, ?_, ?_⟩
  · rw [← order.bytes_eq]
    exact List.prefix_append _ _
  · intro nothing
    have total := order.bytes_eq
    rw [nothing, List.flatMap_nil, List.append_nil] at total
    exact total

section Order

variable {bytes : ι → List α} {s : Socket ι α} (memory : ι → List α)

theorem InOrder.start (order : InOrder bytes s) (item : ι) (waiting : s.resuming = []) :
    InOrder bytes (s.next memory (.start item)) := by
  have total := order.bytes_eq
  refine ⟨Or.inl waiting, ?_⟩
  simp only [next, outstanding, List.flatMap_append, ← total, List.flatMap_singleton, List.append_assoc]
  rfl

theorem InOrder.transfer (order : InOrder bytes s) (count : Nat) (unsplit : s.Unsplit memory (.transfer count))
    (kept : s.Kept bytes memory (.transfer count)) : InOrder bytes (s.next memory (.transfer count)) := by
  have total := order.bytes_eq
  unfold next
  cases first : s.issued with
  | nil => exact order
  | cons op later =>
      have waiting : s.resuming = [] := by
        rcases order.alone with nothing | ⟨none, _⟩
        · exact nothing
        · rw [first] at none
          cases none
      have holds : op.rest memory = op.rest bytes := by
        rw [Op.rest, Op.rest, kept op (by rw [first]; rfl)]
      rw [outstanding, waiting, first, List.nil_append, List.flatMap_cons] at total
      simp only [holds]
      by_cases part : count < (op.rest bytes).length
      · have single := unsplit op (by rw [first]; rfl) (by rw [holds]; exact part)
        rw [outstanding, waiting, first, List.nil_append, List.length_cons] at single
        have last : later = [] := List.length_eq_zero_iff.mp (by omega)
        subst last
        refine ⟨Or.inr ⟨rfl, ?_⟩, ?_⟩
        · simp only [waiting, if_pos part, List.nil_append, List.length_singleton]
        · have left : Op.rest bytes ⟨op.item, op.done + count⟩ = (op.rest bytes).drop count := List.drop_drop.symm
          simp only [outstanding, waiting, if_pos part, List.nil_append, List.append_nil, List.flatMap_cons,
            List.flatMap_nil, List.append_assoc, left, List.take_append_drop, ← total]
      · refine ⟨Or.inl ?_, ?_⟩
        · simp only [waiting, if_neg part]
        · simp only [outstanding, waiting, if_neg part, List.nil_append, List.append_assoc,
            List.take_of_length_le (Nat.not_lt.mp part), ← total]

theorem InOrder.resume (order : InOrder bytes s) (index : Nat) (may : index < s.resuming.length) :
    InOrder bytes (s.next memory (.resume index)) := by
  have total := order.bytes_eq
  rcases order.alone with nothing | ⟨none, single⟩
  · rw [nothing] at may
    cases may
  · obtain ⟨op, only⟩ := List.length_eq_one_iff.mp single
    have first : index = 0 := by omega
    subst first
    refine ⟨Or.inl ?_, ?_⟩
    · simp only [next, only, List.eraseIdx_cons_zero]
    · rw [outstanding, only, none] at total
      simp only [next, only, none, outstanding, List.eraseIdx_cons_zero, ← total]
      rfl

theorem InOrder.next (order : InOrder bytes s) (event : Event ι) (may : s.enabled memory event)
    (unsplit : s.Unsplit memory event) (kept : s.Kept bytes memory event) :
    InOrder bytes (s.next memory event) := by
  cases event with
  | start item => exact order.start memory item unsplit
  | transfer count => exact order.transfer memory count unsplit kept
  | resume index => exact order.resume memory index may

/-- Only the buffers of the socket's own items matter. -/
theorem InOrder.congr {bytes' : ι → List α} (order : InOrder bytes s)
    (started : ∀ item ∈ s.started, bytes' item = bytes item)
    (outstanding : ∀ op ∈ s.outstanding, bytes' op.item = bytes op.item) : InOrder bytes' s := by
  refine ⟨order.alone, ?_⟩
  have rests : ∀ op ∈ s.outstanding, op.rest bytes' = op.rest bytes := by
    intro op member
    rw [Op.rest, Op.rest, outstanding op member]
  rw [List.flatMap_congr rests, List.flatMap_congr started]
  exact order.bytes_eq

theorem mem_started_next {event : Event ι} {item : ι} (member : item ∈ (s.next memory event).started) :
    event = .start item ∨ item ∈ s.started := by
  cases event with
  | resume index => exact Or.inr member
  | start new =>
      rcases List.mem_append.mp member with old | now
      · exact Or.inr old
      · rw [List.mem_singleton.mp now]
        exact Or.inl rfl
  | transfer count =>
      unfold Socket.next at member
      cases first : s.issued with
      | nil =>
          rw [first] at member
          exact Or.inr member
      | cons op later =>
          rw [first] at member
          exact Or.inr member

theorem InOrder.stream_front (order : InOrder bytes s) : s.stream <+: s.started.flatMap bytes := by
  rw [← order.bytes_eq]
  exact List.prefix_append _ _

/-- Nothing appears among the outstanding writes but a write that was just started. -/
theorem item_of_mem_next {event : Event ι} {op : Op ι} (member : op ∈ (s.next memory event).outstanding) :
    event = .start op.item ∨ ∃ before ∈ s.outstanding, before.item = op.item := by
  cases event with
  | start item =>
      simp only [Socket.next, outstanding, List.mem_append, List.mem_singleton] at member
      rcases member with old | old | rfl
      · exact Or.inr ⟨op, List.mem_append_left _ old, rfl⟩
      · exact Or.inr ⟨op, List.mem_append_right _ old, rfl⟩
      · exact Or.inl rfl
  | transfer count =>
      apply Or.inr
      unfold Socket.next at member
      cases first : s.issued with
      | nil =>
          rw [first] at member
          exact ⟨op, member, rfl⟩
      | cons head later =>
          rw [first] at member
          simp only [outstanding, List.mem_append] at member
          rcases member with part | old
          · split at part
            · rcases List.mem_append.mp part with old | new
              · exact ⟨op, List.mem_append_left _ old, rfl⟩
              · rw [List.mem_singleton.mp new]
                exact ⟨head, by rw [outstanding, first]; simp, rfl⟩
            · exact ⟨op, List.mem_append_left _ part, rfl⟩
          · exact ⟨op, by rw [outstanding, first]; simp [old], rfl⟩
  | resume index =>
      apply Or.inr
      simp only [Socket.next, outstanding, List.mem_append, Option.mem_toList] at member
      rcases member with old | old | again
      · exact ⟨op, List.mem_append_left _ (List.mem_of_mem_eraseIdx old), rfl⟩
      · exact ⟨op, List.mem_append_right _ old, rfl⟩
      · exact ⟨op, List.mem_append_left _ (List.mem_of_getElem? again), rfl⟩

end Order

end Socket

end Base.ComposedWrite
