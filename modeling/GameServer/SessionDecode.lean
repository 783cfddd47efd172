import GameServer.SessionStream

set_option autoImplicit false

/- What Make_Body makes of the messages of one session. It copies twice as many
characters as a body has, so the receive array's old contents take part. -/
namespace GameServer

open Base

/-- Digits directly behind a text of `n` characters, as far as Make_Body looks. -/
def leftover (data : WArray) (n : Nat) : List UInt16 := Decimal.run (data.wides (4 + n) n)

/-- Digits that do not change the number `t` printed in front of them. -/
def Harmless (digits : List UInt16) (t : UINT) : Prop := digits = [] ∨ t = 0 ∧ ∀ c ∈ digits, c = 48

theorem readUnsigned_digits (t : UINT) (rest : List UInt16) :
    readUnsigned (Decimal.digits t.toNat ++ rest) = some t ↔ Harmless (Decimal.run rest) t := by
  have all : ∀ c ∈ Decimal.run rest, Decimal.isDigit c = true := fun _ => Decimal.isDigit_of_mem_run
  have value := Decimal.value_digits t.toNat
  have bound := t.toNat_lt
  have alone : Decimal.numeral (Decimal.digits t.toNat) = some t := by
    rw [Decimal.numeral_of_small (Decimal.digits_ne_nil _) (by rwa [value]), value, UInt32.ofNat_toNat]
  have zero : t.toNat = 0 ↔ t = 0 := by
    rw [← UInt32.toNat_inj]
    rfl
  have changed := Decimal.numeral_append_iff (Decimal.digits_ne_nil t.toNat) all
  rw [alone, value, zero, or_iff_right (Nat.not_le.mpr bound)] at changed
  change Decimal.numeral (Decimal.run (Decimal.digits t.toNat ++ rest)) = some t ↔ _
  rw [Decimal.run_digits_append, changed, Harmless]

theorem run_nonzero (text : List UInt16) : Decimal.run (text.takeWhile (· != 0)) = Decimal.run text := by
  rw [Decimal.run, Decimal.run, List.takeWhile_takeWhile]
  congr 1
  funext c
  by_cases zero : c = 0
  · subst zero
    decide
  · simp [zero]

namespace Session

theorem wide_received_inside (data : WArray) (pevent : UINT) (s : List UInt16) (index : Nat)
    (inside : index < s.length) (fits : 4 + index < 1024) :
    (received data pevent s).wide (4 + index) = s[index] :=
  Block.wide_store_inside _ 4 s index inside (by omega)

/-- Behind its body a message leaves the array as it was. -/
theorem wide_received_behind (data : WArray) (pevent : UINT) (s : List UInt16) (index : Nat)
    (behind : s.length ≤ index) :
    (received data pevent s).wide (4 + index) = data.wide (4 + index) := by
  rw [received, Block.wide_store_outside _ headerLen _ _
      (Or.inr (by rw [wideBytes_length]; simp only [headerLen]; omega)),
    Block.wide_store_outside _ 0 _ _ (Or.inr (by simp; omega))]

end Session

namespace Server

/-- The local array of Make_Body when it is read as a text. -/
def closedBuf (p buf : WArray) (body limit : Nat) : WArray :=
  (buf.store 0 (wideBytes (p.wides body limit))).store (2 * limit) (bytes16 0)

theorem makeBody_value (ar : TextArchive) (p buf : WArray) (body : Nat) (len : UINT) :
    (makeBody ar p body len buf).value =
      (ar.read (Traced.cstring (closedBuf p buf body len.toNat))).elim (.error .inputStreamError) .ok := by
  unfold makeBody closedBuf
  simp only [Traced.value_bind, Traced.value_readWides, Traced.value_write, Traced.value_readText,
    Traced.value_pure]

theorem wide_closedBuf (p buf : WArray) (body limit index : Nat) (inside : limit < 1024)
    (below : index < limit) : (closedBuf p buf body limit).wide index = p.wide (body + index) := by
  have copy := Block.wide_store_inside buf 0 (p.wides body limit) index
    (by rwa [Block.wides_length]) (by omega)
  rw [Nat.zero_add, Nat.mul_zero, Block.wides_getElem] at copy
  rw [closedBuf, Block.wide_store_outside _ _ _ _ (Or.inl (by omega)), copy]

theorem wide_closedBuf_end (p buf : WArray) (body limit : Nat) (inside : limit < 1024) :
    (closedBuf p buf body limit).wide limit = 0 :=
  Block.wide_store_inside _ limit [0] 0 (by decide) (by omega)

theorem wides_closedBuf (p buf : WArray) (body limit start count : Nat) (inside : limit < 1024)
    (below : start + count ≤ limit) :
    (closedBuf p buf body limit).wides start count = p.wides (body + start) count := by
  simp only [Block.wides]
  apply List.map_congr_left
  intro offset member
  rw [List.mem_range] at member
  rw [wide_closedBuf _ _ _ _ _ inside (by omega), Nat.add_assoc]

/-- The text Make_Body hands to the archive: the body, then what it copied behind it. -/
theorem cstring_closedBuf (p buf : WArray) (text : List UInt16) (body limit : Nat) (inside : limit < 1024)
    (short : text.length ≤ limit) (same : p.wides body text.length = text) (nonzero : ∀ c ∈ text, c ≠ 0) :
    Traced.cstring (closedBuf p buf body limit) =
      text ++ (p.wides (body + text.length) (limit - text.length)).takeWhile (· != 0) := by
  have front := wides_closedBuf p buf body limit 0 text.length inside (by omega)
  rw [Nat.add_zero, same] at front
  have read := Traced.cstring_cut _ text limit inside short front nonzero (wide_closedBuf_end p buf body limit inside)
  rw [read, wides_closedBuf _ _ _ _ _ _ inside (by omega)]

/-- Make_Body takes the right number out of a packet that holds the text of `t` unless
digits behind the text change it. -/
theorem decode_text (ar : TextArchive) (buf p : WArray) (t : UINT)
    (count : p.word 4 = UInt32.ofNat (2 * ar.size t)) (body : p.wides 4 (ar.size t) = ar.write t) :
    decode ar buf p = .ok t ↔ Harmless (leftover p (ar.size t)) t := by
  have bounds := ar.size_bounds t
  have length : (ar.write t).length = ar.size t := rfl
  have digit := Decimal.head_digits_append t.toNat ((p.wides (4 + ar.size t) (ar.size t)).takeWhile (· != 0))
  have doubled := byteCount_toNat (ar.size t) (by omega)
  have text := cstring_closedBuf p buf (ar.write t) 4 (2 * ar.size t) (by omega) (by omega) body
    (fun _ member => ar.ne_zero_of_mem_write t member)
  rw [length, show 2 * ar.size t - ar.size t = ar.size t by omega] at text
  have read : ar.read (ar.write t ++ (p.wides (4 + ar.size t) (ar.size t)).takeWhile (· != 0)) =
      readUnsigned (Decimal.digits t.toNat ++
        (p.wides (4 + ar.size t) (ar.size t)).takeWhile (· != 0)) := by
    rw [ar.write_eq, List.append_assoc, ar.read_eq _ digit]
  rw [decode, show headerLen / 2 = 4 from rfl, count, makeBody_value, doubled, text, read, leftover,
    ← run_nonzero, ← readUnsigned_digits]
  cases readUnsigned (Decimal.digits t.toNat ++ _) <;> simp

theorem decode_eq_ok_iff (ar : TextArchive) (buf data : WArray) (t : UINT) :
    decode ar buf (Session.received data PacketEvent.tester.code (ar.write t)) = .ok t ↔
      Harmless (leftover data (ar.size t)) t := by
  have bounds := ar.size_bounds t
  have length : (ar.write t).length = ar.size t := rfl
  have body : (Session.received data PacketEvent.tester.code (ar.write t)).wides 4 (ar.size t) = ar.write t := by
    apply List.ext_getElem (Block.wides_length _ _ _)
    intro index _ inside
    rw [Block.wides_getElem, Session.wide_received_inside _ _ _ _ inside (by omega)]
  have behind : leftover (Session.received data PacketEvent.tester.code (ar.write t)) (ar.size t) =
      leftover data (ar.size t) := by
    simp only [leftover, Block.wides]
    congr 1
    apply List.map_congr_left
    intro offset _
    rw [Nat.add_assoc, Session.wide_received_behind _ _ _ _ (by omega)]
  rw [decode_text ar buf _ t (Session.word_received data PacketEvent.tester.code (ar.write t)).2 body, behind]

end Server

/-- One call of the client's Make_packet, with what the packet and the memory behind the
serialised text held. -/
structure Request where
  t : UINT
  before : WArray
  after : Nat → UInt16

namespace Request

def packet (ar : TextArchive) (x : Request) : Packet := (Client.makePacket ar x.before x.after x.t).value

def message (ar : TextArchive) (x : Request) : Message :=
  ⟨.client, PacketEvent.tester.code, ar.write x.t, x.before, x.after, by
    have := (ar.size_bounds x.t).2
    unfold TextArchive.size at this
    omega⟩

theorem wire_message (ar : TextArchive) (x : Request) : (x.message ar).wire = (x.packet ar).wire := by
  have bound := (ar.size_bounds x.t).2
  unfold TextArchive.size at bound
  exact ((x.message ar).wire_packet fun _ => (show (ar.write x.t).length ≤ 510 by omega)).symm

end Request

/-- The character at body position `index` of `data_` once the numbers in `earlier`, the
latest first, have been received: it comes from the latest text that long, or was there
from the start. -/
def residue (ar : TextArchive) (data : WArray) : List UINT → Nat → UInt16
  | [], index => data.wide (4 + index)
  | t :: earlier, index => ((ar.write t)[index]?).getD (residue ar data earlier index)

/-- The digits Make_Body finds behind the text of `t`. -/
def leftBehind (ar : TextArchive) (data : WArray) (earlier : List UINT) (t : UINT) : List UInt16 :=
  Decimal.run ((List.range (ar.size t)).map fun offset => residue ar data earlier (ar.size t + offset))

/-- Every number of the session is followed by nothing that changes it. -/
def Undisturbed (ar : TextArchive) (data : WArray) : List UINT → List UINT → Prop
  | _, [] => True
  | earlier, t :: rest => Harmless (leftBehind ar data earlier t) t ∧ Undisturbed ar data (t :: earlier) rest

/-- In terms of the numbers sent: nothing is left behind `t` exactly when no earlier
number has more digits and `data_` held no digit at that place to begin with. -/
theorem leftBehind_eq_nil_iff (ar : TextArchive) (data : WArray) (earlier : List UINT) (t : UINT) :
    leftBehind ar data earlier t = [] ↔
      (∀ u ∈ earlier, (Decimal.digits u.toNat).length ≤ (Decimal.digits t.toNat).length) ∧
        Decimal.isDigit (data.wide (4 + ar.size t)) = false := by
  have positive := (ar.size_bounds t).1
  have first : leftBehind ar data earlier t = [] ↔
      Decimal.isDigit (residue ar data earlier (ar.size t)) = false := by
    obtain ⟨count, size⟩ := Nat.exists_eq_add_of_le' positive
    rw [leftBehind, Decimal.run, size, List.range_succ_eq_map, List.map_cons, Nat.add_zero, List.takeWhile_cons]
    split
    · rename_i digit
      simp [digit]
    · rename_i other
      simp [other]
  rw [first]
  clear first
  induction earlier with
  | nil => simp [residue]
  | cons u earlier ih =>
      by_cases longer : (Decimal.digits u.toNat).length ≤ (Decimal.digits t.toNat).length
      · have shadowless : (ar.write u)[ar.size t]? = none := by
          apply List.getElem?_eq_none
          change ar.size u ≤ ar.size t
          rw [ar.size_eq, ar.size_eq]
          omega
        rw [residue, shadowless, Option.getD_none, List.forall_mem_cons, and_assoc]
        exact ih.trans (and_iff_right longer).symm
      · have inside : (Decimal.digits t.toNat).length < (Decimal.digits u.toNat).length := Nat.not_le.mp longer
        have digit := Decimal.isDigit_of_mem_digits (List.getElem_mem inside)
        have left : (ar.write u)[ar.size t]? = some (Decimal.digits u.toNat)[(Decimal.digits t.toNat).length] := by
          rw [ar.size_eq, ar.write_eq, List.getElem?_append_right (Nat.le_add_right _ _),
            Nat.add_sub_cancel_left, List.getElem?_eq_getElem inside]
        rw [residue, left, Option.getD_some, digit, List.forall_mem_cons]
        exact iff_of_false Bool.noConfusion (fun both => longer both.1.1)

namespace Session

/-- The receive array holds what the texts received so far left in it. -/
def Remembers (ar : TextArchive) (initial : WArray) (earlier : List UINT) (data : WArray) : Prop :=
  ∀ index, 4 + index < 1024 → data.wide (4 + index) = residue ar initial earlier index

theorem Remembers.received {ar : TextArchive} {initial : WArray} {earlier : List UINT} {data : WArray}
    (remembers : Remembers ar initial earlier data) (t : UINT) :
    Remembers ar initial (t :: earlier) (received data PacketEvent.tester.code (ar.write t)) := by
  intro index fits
  rw [residue]
  by_cases inside : index < (ar.write t).length
  · rw [wide_received_inside _ _ _ _ inside fits, List.getElem?_eq_getElem inside, Option.getD_some]
  · rw [wide_received_behind _ _ _ _ (Nat.not_lt.mp inside), List.getElem?_eq_none (Nat.not_lt.mp inside),
      Option.getD_none]
    exact remembers index fits

theorem Remembers.leftover {ar : TextArchive} {initial : WArray} {earlier : List UINT} {data : WArray}
    (remembers : Remembers ar initial earlier data) (t : UINT) :
    leftover data (ar.size t) = leftBehind ar initial earlier t := by
  have bounds := ar.size_bounds t
  rw [GameServer.leftover, leftBehind, Block.wides]
  congr 1
  apply List.map_congr_left
  intro offset member
  rw [List.mem_range] at member
  rw [Nat.add_assoc]
  exact remembers _ (by omega)

/-- The buffer is decoded to the number that was sent, whatever Make_Body's local array
held. -/
def Decodes (ar : TextArchive) (task : Packet) (x : Request) : Prop :=
  ∀ buf, Server.decode ar buf task.data = .ok x.t

theorem settles_requests (ar : TextArchive) (parse : Packet → TaskResult) (initial : WArray)
    (earlier : List UINT) (s : Session) (segments : List (List UInt8)) (xs : List Request)
    (waiting : s.outstanding = some .header) (remembers : Remembers ar initial earlier s.data)
    (stream : segments.flatten = (xs.map fun x => (x.packet ar).wire).flatten) :
    ∃ link more, Link.Settles parse ⟨s, segments⟩ link ∧ link.session.tasks = s.tasks ++ more ∧
      (List.Forall₂ (Decodes ar) more xs ↔ Undisturbed ar initial earlier (xs.map Request.t)) := by
  induction xs generalizing s segments earlier with
  | nil =>
      have empty : segments.flatten.length = 0 := by rw [stream]; rfl
      refine ⟨⟨s, segments⟩, [], ⟨Relation.ReflTransGen.refl, ?_⟩, (List.append_nil _).symm, ?_⟩
      · exact Link.deliver_short parse s segments .header waiting (by rw [empty]; decide)
      · exact iff_of_true .nil trivial
  | cons x xs ih =>
      have wire := (x.message ar).wire_eq
      rw [Request.wire_message] at wire
      rw [List.map_cons, List.flatten_cons, wire] at stream
      obtain ⟨rest, reach, left⟩ := reaches_afterMessage parse s segments _ _ _ waiting
        (x.message ar).fits stream
      obtain ⟨link, more, settled, tasks, decoded⟩ := ih (x.t :: earlier)
        (s.afterMessage parse PacketEvent.tester.code (ar.write x.t)) rest rfl (remembers.received x.t) left
      refine ⟨link, Packet.ofArray (received s.data PacketEvent.tester.code (ar.write x.t)) :: more,
        settled.of_reaches reach, ?_, ?_⟩
      · rw [tasks, tasks_afterMessage, List.append_assoc, List.singleton_append]
      · have here : Decodes ar (Packet.ofArray (received s.data PacketEvent.tester.code (ar.write x.t))) x ↔
            Harmless (leftBehind ar initial earlier x.t) x.t := by
          rw [← remembers.leftover]
          constructor
          · exact fun decodes => (Server.decode_eq_ok_iff ar (fun _ => 0) s.data x.t).mp (decodes _)
          · exact fun harmless buf => (Server.decode_eq_ok_iff ar buf s.data x.t).mpr harmless
        rw [List.forall₂_cons, List.map_cons, Undisturbed, here, decoded]

/-- For every sequence of numbers sent over one session, under any segmentation and from
any content of `data_`: each buffer is decoded to the number that was sent if and only
if every text is undisturbed by what older texts left in the array. -/
theorem requests_decoded_iff (ar : TextArchive) (parse : Packet → TaskResult) (data : WArray)
    (segments : List (List UInt8)) (xs : List Request)
    (stream : segments.flatten = (xs.map fun x => (x.packet ar).wire).flatten) :
    ∃ link, Link.Settles parse ⟨start data, segments⟩ link ∧
      (List.Forall₂ (Decodes ar) link.session.tasks xs ↔ Undisturbed ar data [] (xs.map Request.t)) := by
  obtain ⟨link, more, settled, tasks, decoded⟩ :=
    settles_requests ar parse data [] (start data) segments xs rfl (fun _ _ => rfl) stream
  exact ⟨link, settled, by rw [tasks]; exact decoded⟩

def request (t : UINT) : Request := ⟨t, fun _ => 0, fun _ => 0⟩

/-- 7 and then 42 over a cleared array, cut inside of the first message. -/
theorem requests_decoded_two :
    ∃ link, Link.Settles (fun _ => .ok none) ⟨start fun _ => 0,
        [((request 7).packet .boost).wire.take 9, ((request 7).packet .boost).wire.drop 9 ++
          ((request 42).packet .boost).wire]⟩ link ∧
      (List.Forall₂ (Decodes .boost) link.session.tasks [request 7, request 42] ↔
        Undisturbed .boost (fun _ => 0) [] [7, 42]) := by
  apply requests_decoded_iff .boost _ _ _ [request 7, request 42]
  simp only [List.flatten_cons, List.flatten_nil, List.map_cons, List.map_nil, List.append_nil]
  rw [← List.append_assoc, List.take_append_drop]

/-- 10 and then 7 over a cleared array: behind the 7 stands the second digit of the 10,
and the digits Make_Body reads there are not the number that was sent. -/
theorem seven_after_ten_not_decoded :
    ∃ link, Link.Settles (fun _ => .ok none)
        ⟨start fun _ => 0, [((request 10).packet .boost).wire, ((request 7).packet .boost).wire]⟩ link ∧
      ¬ List.Forall₂ (Decodes .boost) link.session.tasks [request 10, request 7] := by
  obtain ⟨link, more, settled, tasks, decoded⟩ :=
    settles_requests .boost (fun _ => .ok none) (fun _ => 0) [] (start fun _ => 0)
      [((request 10).packet .boost).wire, ((request 7).packet .boost).wire] [request 10, request 7] rfl
      (fun _ _ => rfl) rfl
  refine ⟨link, settled, ?_⟩
  rw [tasks]
  intro all
  have undisturbed := decoded.mp all
  have digits : ¬ (Decimal.digits (10 : UINT).toNat).length ≤ (Decimal.digits (7 : UINT).toNat).length := by
    decide
  rcases undisturbed.2.1 with nothing | zero
  · exact digits (((leftBehind_eq_nil_iff _ _ _ _).mp nothing).1 10 List.mem_cons_self)
  · exact absurd zero.1 (by decide)

end Session

end GameServer
