import GameServer.SessionDecode
import GameServer.Base.NumberStream

set_option autoImplicit false

/- The two copies of Make_Body on the same body. The server's sets a terminator behind the
characters it copies; in the client's the text goes on with what the local array held. -/
namespace GameServer

open Base NumberStream

/-- A text archive that takes its numbers out of the stream with `>>`. -/
structure StreamArchive where
  classInfo : List UINT
  reader : Reader
  /-- Behind the class information of `test` the archive reads `t`. -/
  expects : reader.after classInfo = .last
  short : classInfo.length ≤ 40

theorem read_tokens (r : Reader) (numbers : List UINT) (text : List UInt16) (expects : r.after numbers = .last) :
    r.read (tokens numbers ++ text) = Reader.last.read text := by
  induction numbers generalizing r with
  | nil =>
      rw [Reader.after] at expects
      rw [expects]
      rfl
  | cons n numbers ih =>
      have split : tokens (n :: numbers) ++ text = Decimal.digits n.toNat ++ 32 :: (tokens numbers ++ text) := by
        simp only [tokens, List.flatMap_cons, List.append_assoc, List.cons_append, List.nil_append]
      cases r with
      | fail => cases expects
      | last => cases expects
      | more next =>
          rw [split, Reader.read_more (readNumber_digits n), Reader.read_space, ih (next n) expects]

namespace StreamArchive

def text (ar : StreamArchive) : TextArchive where
  classInfo := ar.classInfo
  write t := tokens ar.classInfo ++ Decimal.digits t.toNat
  read := ar.reader.read
  write_eq _ := rfl
  read_eq text digit := by
    rw [read_tokens _ _ _ ar.expects, read_last_of_digit digit]
    rfl
  short := ar.short

/-- Tracking and version, both 0. -/
def boost : StreamArchive where
  classInfo := [0, 0]
  reader := .more fun tracking => .more fun version => if tracking = 0 ∧ version = 0 then .last else .fail
  expects := rfl
  short := TextArchive.boost.short

end StreamArchive

/-- What the local array of Make_Body shows behind the first `len` characters. -/
def stale (buf : WArray) (len : Nat) : List UInt16 := (buf.wides len (1024 - len)).takeWhile (· != 0)

section Texts

variable (p buf : WArray) (body len : Nat)

/-- The local array of the client's Make_Body when it is read as a text. -/
def Client.copiedBuf : WArray := buf.store 0 (wideBytes (p.wides body len))

theorem Client.makeBody_value (ar : TextArchive) (count : UINT) :
    (makeBody ar p body count buf).value =
      (ar.read (Traced.cstring (copiedBuf p buf body count.toNat))).elim (.error .inputStreamError) .ok := by
  unfold makeBody copiedBuf
  simp only [Traced.value_bind, Traced.value_readWides, Traced.value_write, Traced.value_readText,
    Traced.value_pure]

/-- The server's text ends with the characters it has copied. -/
theorem Server.cstring_closedBuf_front (small : len ≤ 1020) :
    Traced.cstring (closedBuf p buf body len) = (p.wides body len).takeWhile (· != 0) := by
  have front := wides_closedBuf p buf body len 0 len (by omega) (by omega)
  have last : (closedBuf p buf body len).wides len 1 = [0] := by
    rw [Block.wides, List.range_one, List.map_singleton, Nat.add_zero, wide_closedBuf_end p buf body len (by omega)]
  have rest := Block.wides_add (closedBuf p buf body len) len 1 (1024 - len - 1)
  rw [show 1 + (1024 - len - 1) = 1024 - len by omega, last, List.singleton_append] at rest
  rw [Nat.add_zero] at front
  rw [Traced.cstring_front _ _ len (by omega) front, show 2048 / 2 - len = 1024 - len from rfl, rest,
    Traced.takeWhile_zero]

/-- The client's text goes on behind them. -/
theorem Client.cstring_copiedBuf (small : len ≤ 1020) :
    Traced.cstring (copiedBuf p buf body len) =
      (p.wides body len ++ buf.wides len (1024 - len)).takeWhile (· != 0) := by
  have front : (copiedBuf p buf body len).wides 0 len = p.wides body len := by
    apply List.ext_getElem
    · rw [Block.wides_length, Block.wides_length]
    · intro index inside _
      rw [Block.wides_length] at inside
      have copy := Block.wide_store_inside buf 0 (p.wides body len) index (by rwa [Block.wides_length]) (by omega)
      rw [Block.wides_getElem]
      exact copy
  have back : (copiedBuf p buf body len).wides len (1024 - len) = buf.wides len (1024 - len) := by
    simp only [Block.wides]
    apply List.map_congr_left
    intro offset _
    have beyond : 0 + (wideBytes (p.wides body len)).length ≤ 2 * (len + offset) := by
      rw [wideBytes_length, Block.wides_length]
      omega
    exact Block.wide_store_outside buf 0 _ _ (Or.inr beyond)
  rw [Traced.cstring_front _ _ len (by omega) front, show 2048 / 2 - len = 1024 - len from rfl, back]

end Texts

/-- For every body: the two copies read the same, whatever their local arrays hold, if and
only if there is a terminator among the characters they copy or the archive makes the
same of these characters with the client's stale ones behind them. -/
theorem makeBody_agree_iff (ar : StreamArchive) (p buf : WArray) (body : Nat) (len : UINT) (small : len.toNat ≤ 1020) :
    (∀ other, (Client.makeBody ar.text p body len buf).value = (Server.makeBody ar.text p body len other).value) ↔
      0 ∈ p.wides body len.toNat ∨ ar.reader.Settled (p.wides body len.toNat) (stale buf len.toNat) := by
  have server (other : WArray) : (Server.makeBody ar.text p body len other).value =
      (ar.reader.read ((p.wides body len.toNat).takeWhile (· != 0))).elim (.error .inputStreamError) .ok := by
    rw [Server.makeBody_value, Server.cstring_closedBuf_front p other body len.toNat small]
    rfl
  have client : (Client.makeBody ar.text p body len buf).value =
      (ar.reader.read ((p.wides body len.toNat ++ buf.wides len.toNat (1024 - len.toNat)).takeWhile (· != 0))).elim
        (.error .inputStreamError) .ok := by
    rw [Client.makeBody_value, Client.cstring_copiedBuf p buf body len.toNat small]
    rfl
  have thrown (a b : Option UINT) : a.elim (.error .inputStreamError) Except.ok = (b.elim (.error .inputStreamError)
      .ok : Except ArchiveException UINT) ↔ a = b := by
    cases a <;> cases b <;> simp
  simp only [server, client, thrown, forall_const]
  by_cases zero : 0 ∈ p.wides body len.toNat
  · rw [Traced.takeWhile_append_of_zero _ zero]
    exact iff_of_true rfl (Or.inl zero)
  · have nonzero : ∀ c ∈ p.wides body len.toNat, (c != 0) = true := by
      intro c member
      rw [bne_iff_ne]
      exact fun same => zero (same ▸ member)
    rw [or_iff_right zero, ← Reader.read_append_iff, List.takeWhile_append_of_pos nonzero,
      List.takeWhile_eq_self_iff.mpr nonzero]
    rfl

section Stale

/-- A packet whose body is `0 0 7`, with no terminator behind it. -/
def sevenPacket : WArray := Block.store (fun _ => 0) headerLen (wideBytes [48, 32, 48, 32, 55])

/-- An old text in the local array: `5` stands behind the five characters copied. -/
def staleBuf : WArray := Block.store (fun _ => 0) 10 (wideBytes [53])

theorem makeBody_agree_iff_ended :
    (Client.makeBody StreamArchive.boost.text sevenPacket Client.headerIdx 6 staleBuf).value =
      (Server.makeBody StreamArchive.boost.text sevenPacket Client.headerIdx 6 staleBuf).value :=
  (makeBody_agree_iff .boost sevenPacket staleBuf Client.headerIdx 6 (by decide)).mpr (Or.inl (by decide)) staleBuf

/-- The server reads 7 and the client 75. -/
theorem stale_digit_read :
    (Client.makeBody StreamArchive.boost.text sevenPacket Client.headerIdx 5 staleBuf).value = .ok 75 ∧
    (Server.makeBody StreamArchive.boost.text sevenPacket Client.headerIdx 5 staleBuf).value = .ok 7 := by
  have client : (sevenPacket.wides Client.headerIdx 5 ++ staleBuf.wides 5 (1024 - 5)).takeWhile (· != 0) =
      [48, 32, 48, 32, 55, 53] := by decide +kernel
  have server : (sevenPacket.wides Client.headerIdx 5).takeWhile (· != 0) = [48, 32, 48, 32, 55] := by decide
  constructor
  · rw [Client.makeBody_value, show (5 : UINT).toNat = 5 from rfl,
      Client.cstring_copiedBuf _ _ _ _ (by decide), client]
    rfl
  · rw [Server.makeBody_value, show (5 : UINT).toNat = 5 from rfl,
      Server.cstring_closedBuf_front _ _ _ _ (by decide), server]
    rfl

end Stale

end GameServer
