import GameServer.Sha256Stream
import GameServer.Login

set_option autoImplicit false

/- The hash of a string, and the login that sends it. -/
namespace GameServer

open Base

namespace Sha256

/-- A string is hashed as the standard says, up to where its size fits an `unsigned int`. -/
theorem hash_ensures (messageBlock : Block blockSize) (s : List UInt8) :
    (hash messageBlock s).Ensures size
      (· = some (Sha2.digest (bytesBits (s.take (s.length % 4294967296))))) := by
  have count : (s.take (s.length % 4294967296)).length < 4294967296 := by
    rw [List.length_take]
    omega
  apply (input_ensures (fresh_represents (new messageBlock)) _).bind
  intro ctx fed
  rw [Hashing.next, List.nil_append, if_pos (by omega)] at fed
  apply (result_ensures fed).bind
  intro after ends
  exact Traced.ensures_pure ends.2

theorem hash_value (messageBlock : Block blockSize) {s : List UInt8} (short : s.length < 4294967296) :
    (hash messageBlock s).value = some (Sha2.digest (bytesBits s)) := by
  have value := (hash_ensures messageBlock s).2
  rwa [Nat.mod_eq_of_lt short, List.take_length] at value

example : (hash (fun _ => 0xAA) [97, 98, 99]).value = some
    [0xba, 0x78, 0x16, 0xbf, 0x8f, 0x01, 0xcf, 0xea, 0x41, 0x41, 0x40, 0xde, 0x5d, 0xae, 0x22, 0x23,
      0xb0, 0x03, 0x61, 0xa3, 0x96, 0x17, 0x7a, 0x9c, 0xb4, 0x10, 0xff, 0x61, 0xf2, 0x00, 0x15, 0xad] := by
  decide +kernel

theorem bytesBits_inj {s t : List UInt8} (same : bytesBits s = bytesBits t) : s = t := by
  have length := congrArg List.length same
  rw [bytesBits_length, bytesBits_length] at length
  have packed := packBits_bytesBits s
  rw [same, show s.length = t.length by omega, packBits_bytesBits] at packed
  exact packed.symm

theorem collide_of_hash {messageBlock messageBlock' : Block blockSize} {s t : List UInt8}
    (short : s.length < 4294967296)
    (short' : t.length < 4294967296) (different : s ≠ t)
      (same : (hash messageBlock s).value = (hash messageBlock' t).value) :
    Absorbed.Collide Sha2.compress 64 Sha2.initial (Sha2.paddedBytes (bytesBits s))
      (Sha2.paddedBytes (bytesBits t)) := by
  rw [hash_value messageBlock short, hash_value messageBlock' short'] at same
  apply Sha2.collide_of_digest
  · rw [bytesBits_length]
    omega
  · rw [bytesBits_length]
    omega
  · exact fun bits => different (bytesBits_inj bits)
  · exact Option.some.inj same

end Sha256

namespace Login

/-- The hash function of sha256.h, for a login to use. -/
def sha256 (messageBlock : Block Sha256.blockSize) : Login.Sha256 where
  hash s := ((GameServer.Sha256.hash messageBlock s).value).getD []
  hash_length s := by
    rw [(GameServer.Sha256.hash_ensures messageBlock s).2, Option.getD_some, Sha2.digest_length]

section Sent

variable {messageBlock messageBlock' : Block Sha256.blockSize} {fails fails' : List Bool} {reply reply' : Reply}
  {buffer buffer' : Block maxBuffer} {id id' pw pw' : List UInt8}

theorem doLogin_sent_whole (connected : connect true fails = false) (short : id.length ≤ 978) (plain : 0 ∉ id) :
    (doLogin (sha256 messageBlock) fails reply buffer id pw).value.sent = some
      (request (sha256 messageBlock) id pw) := by
  have whole : 0 ∉ request (sha256 messageBlock) id pw := fun zero => plain ((zero_mem_request _ id pw).mp zero)
  rw [doLogin_sent (sha256 messageBlock) reply buffer id pw connected short, strncpy_whole _ whole]

/-- What two logins send tells their names, and their passwords up to the first NUL; two
such passwords that look the same lead to a collision of `process_message_block`. -/
theorem sent_tells (connected : connect true fails = false) (connected' : connect true fails' = false)
    (short : id.length ≤ 978) (short' : id'.length ≤ 978) (plain : 0 ∉ id) (plain' : 0 ∉ id')
    (hashed : (cString pw).length < 4294967296) (hashed' : (cString pw').length < 4294967296)
    (same : (doLogin (sha256 messageBlock) fails reply buffer id pw).value.sent =
      (doLogin (sha256 messageBlock') fails' reply' buffer' id' pw').value.sent) :
    id = id' ∧ (cString pw = cString pw' ∨
      Absorbed.Collide Sha2.compress 64 Sha2.initial (Sha2.paddedBytes (bytesBits (cString pw)))
        (Sha2.paddedBytes (bytesBits (cString pw')))) := by
  rw [doLogin_sent_whole connected short plain, doLogin_sent_whole connected' short' plain'] at same
  have requests := Option.some.inj same
  have lengths := congrArg List.length requests
  rw [request_length, request_length] at lengths
  rw [request, request, List.append_assoc, List.append_assoc, List.append_assoc, List.append_assoc] at requests
  have names := List.append_inj requests (by omega)
  have texts := List.append_cancel_right (List.append_cancel_left names.2)
  constructor
  · exact names.1
  · by_cases equal : cString pw = cString pw'
    · exact Or.inl equal
    · apply Or.inr
      rw [hashBase64_eq, hashBase64_eq] at texts
      have digests := Base64.encode_inj texts (by rw [Sha256.hash_length, Sha256.hash_length])
      apply GameServer.Sha256.collide_of_hash hashed hashed' equal
      have first := GameServer.Sha256.hash_value messageBlock hashed
      have second := GameServer.Sha256.hash_value messageBlock' hashed'
      simp only [sha256, first, second, Option.getD_some] at digests
      rw [first, second, digests]

end Sent

/-- What is behind the first NUL of a password is not sent. -/
theorem sent_tells_cut :
    ([106, 101, 110] : List UInt8) = [106, 101, 110] ∧ (cString [97] = cString [97, 0, 98] ∨
      Absorbed.Collide Sha2.compress 64 Sha2.initial (Sha2.paddedBytes (bytesBits (cString [97])))
        (Sha2.paddedBytes (bytesBits (cString [97, 0, 98])))) := by
  have connected : connect true [false] = false := rfl
  have sent (pw : List UInt8) :
    (doLogin (sha256 fun _ => 0) [false] accepted (fun _ => 0) [106, 101, 110] pw).value.sent =
      some (request (sha256 fun _ => 0) [106, 101, 110] pw) := doLogin_sent_whole connected (by decide) (by decide)
  have same := (sent [97]).trans (sent [97, 0, 98]).symm
  exact sent_tells connected connected (by decide) (by decide) (by decide) (by decide) (by decide) (by decide) same

end Login

end GameServer
