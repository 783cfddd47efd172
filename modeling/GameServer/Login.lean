import GameServer.Base.Access
import GameServer.Base.CString
import GameServer.Base64

set_option autoImplicit false

/- The client's login: one line with the name and the hash of the password. Strings
are the bytes of a `std::string`, any bytes at all. -/
namespace GameServer.Login

open Base

def maxBuffer : Nat := 1024

/-- `FAIL_MSG` -/
def failMsg : List UInt8 := [49]

def space : UInt8 := 32

def newline : UInt8 := 10

/-- The hash function of sha256.h; all that is used of it is how long its digests are. -/
structure Sha256 where
  hash : List UInt8 → List UInt8
  hash_length : ∀ message, (hash message).length = 32

/-- `sha256::hash_base64` -/
def hashBase64 (sha : Sha256) (s : List UInt8) : List UInt8 := Base64.encodeFromArray (sha.hash s) 32

/-- The error the connect loop ends with; `fails` tells for each endpoint whether
connecting to it fails. -/
def connect : (error : Bool) → (fails : List Bool) → Bool
  | error, [] => error
  | error, fail :: fails => if error then connect fail fails else error

/-- The one local array of DoLogin. -/
inductive Local where
  | buffer
  deriving DecidableEq

def localSize : Local → Nat
  | .buffer => maxBuffer

/-- What `read_some` delivers: not more than the array it is given holds. -/
structure Reply where
  bytes : List UInt8
  fits : bytes.length ≤ maxBuffer

/-- What a login hands to `socket.send`, if it gets there, and what it returns. -/
structure Exchange where
  sent : Option (List UInt8)
  result : List UInt8

/-- The string DoLogin puts together. -/
def request (sha : Sha256) (id pw : List UInt8) : List UInt8 :=
  id ++ [space] ++ hashBase64 sha (cString pw) ++ [newline]

/-- `DoLogin`; `buffer` is what its array holds before the first write. -/
def doLogin (sha : Sha256) (fails : List Bool) (reply : Reply) (buffer : Block maxBuffer)
    (id pw : List UInt8) : Traced Local Exchange :=
  if connect true fails = true then pure ⟨none, failMsg⟩
  else do
    let buf := request sha id pw
    let buffer ← Traced.write .buffer buffer 0 (strncpy buf buf.length)
    let sent ← Traced.readBytes .buffer buffer 0 buf.length
    let buffer ← Traced.write .buffer buffer 0 (List.replicate maxBuffer 0)
    let buffer ← Traced.write .buffer buffer 0 reply.bytes
    let result ← Traced.readBytes .buffer buffer 0 reply.bytes.length
    pure ⟨some sent, result⟩

theorem hashBase64_eq (sha : Sha256) (message : List UInt8) :
    hashBase64 sha message = Base64.encode (sha.hash message) := by
  have whole : (sha.hash message).take 32 = sha.hash message :=
    List.take_of_length_le (Nat.le_of_eq (sha.hash_length message))
  rw [hashBase64, Base64.encodeFromArray]
  exact congrArg Base64.encode whole

theorem hashBase64_length (sha : Sha256) (message : List UInt8) : (hashBase64 sha message).length = 44 := by
  rw [hashBase64_eq, Base64.encode_length, sha.hash_length]

theorem hashBase64_plain (sha : Sha256) (message : List UInt8) {c : UInt8} (special : c ∈ [0, 10, 32]) :
    c ∉ hashBase64 sha message := by
  intro member
  rw [hashBase64_eq] at member
  exact Base64.encode_plain member special

theorem hashBase64_inj (sha : Sha256) {front back : List UInt8} (same : hashBase64 sha front = hashBase64 sha back) :
    sha.hash front = sha.hash back := by
  rw [hashBase64_eq, hashBase64_eq] at same
  exact Base64.encode_inj same (by rw [sha.hash_length, sha.hash_length])

theorem request_length (sha : Sha256) (id pw : List UInt8) : (request sha id pw).length = id.length + 46 := by
  simp only [request, List.length_append, hashBase64_length, List.length_singleton]

theorem zero_mem_request (sha : Sha256) (id pw : List UInt8) : 0 ∈ request sha id pw ↔ 0 ∈ id := by
  have plain : 0 ∉ hashBase64 sha (cString pw) := hashBase64_plain sha (cString pw) (by decide)
  have separators : 0 ∉ [space] ∧ 0 ∉ [newline] := by decide
  simp only [request, List.mem_append, plain, separators.1, separators.2, or_false]

section Run

variable (sha : Sha256) {fails : List Bool} (reply : Reply) (buffer : Block maxBuffer) (id pw : List UInt8)

theorem doLogin_inBounds_iff (connected : connect true fails = false) :
    (doLogin sha fails reply buffer id pw).InBounds localSize ↔ id.length ≤ 978 := by
  have received := reply.fits
  have length := request_length sha id pw
  rw [doLogin, if_neg (by rw [connected]; exact Bool.false_ne_true)]
  simp only [Traced.inBounds_bind, Traced.inBounds_write, Traced.inBounds_readBytes, Traced.inBounds_pure,
    strncpy_length, List.length_replicate, localSize, and_true, length]
  unfold maxBuffer at *
  omega

theorem doLogin_sent (connected : connect true fails = false) (short : id.length ≤ 978) :
    (doLogin sha fails reply buffer id pw).value.sent =
      some (strncpy (request sha id pw) (request sha id pw).length) := by
  have length := request_length sha id pw
  have copied := Block.slice_store buffer 0 (strncpy (request sha id pw) (request sha id pw).length)
    (by rw [strncpy_length, length]; unfold maxBuffer; omega)
  rw [strncpy_length] at copied
  rw [doLogin, if_neg (by rw [connected]; exact Bool.false_ne_true)]
  exact congrArg some copied

end Run

/-- The line a login is to send. -/
def line (id hash : List UInt8) : List UInt8 := id ++ [space] ++ hash ++ [newline]

/-- What was sent is the line, and split at its only space it shows both of its parts. -/
structure Delivered (sha : Sha256) (id pw sent : List UInt8) : Prop where
  whole : sent = line id (hashBase64 sha pw)
  parts : ∃ text, sent.splitOn newline = [text, []] ∧ text.splitOn space = [id, hashBase64 sha pw]

theorem parts_iff (id hash : List UInt8) (plain : space ∉ hash ∧ newline ∉ hash) :
    (∃ text, (line id hash).splitOn newline = [text, []] ∧ text.splitOn space = [id, hash]) ↔
      space ∉ id ∧ newline ∉ id := by
  have apart : newline ≠ space := by decide
  have body : id ++ [space] ++ hash = id ++ space :: hash := by
    rw [List.append_assoc, List.singleton_append]
  simp only [line, splitOn_pair_iff, body, List.not_mem_nil, not_false_eq_true, and_true]
  constructor
  · intro ⟨text, ends, split⟩
    rw [ends.1, splitOn_pair_iff] at split
    exact ⟨split.1.2, fun member => ends.2 (List.mem_append_left _ member)⟩
  · intro both
    use id ++ space :: hash
    constructor
    · simp only [List.mem_append, List.mem_cons, both.2, apart, plain.2, or_false, not_false_eq_true, and_true]
    · exact (splitOn_pair_iff space id hash id hash).mpr ⟨⟨rfl, both.1⟩, rfl, plain.1⟩

/-- What `strncpy` leaves of the request is the line to send only if nothing of either
string is lost. -/
theorem copied_iff (sha : Sha256) (id pw : List UInt8) :
    strncpy (request sha id pw) (request sha id pw).length = line id (hashBase64 sha pw) ↔
      0 ∉ id ∧ sha.hash (cString pw) = sha.hash pw := by
  by_cases zero : 0 ∈ id
  · obtain ⟨front, cut⟩ := strncpy_cut _ ((zero_mem_request sha id pw).mpr zero)
    constructor
    · intro same
      rw [cut, line] at same
      have last := congrArg List.getLast? same
      rw [List.getLast?_concat, List.getLast?_concat] at last
      exact absurd last (by decide)
    · intro both
      exact absurd zero both.1
  · rw [strncpy_whole _ (fun member => zero ((zero_mem_request sha id pw).mp member)), request, line]
    constructor
    · intro same
      have body := List.append_cancel_right same
      exact ⟨zero, hashBase64_inj sha (List.append_cancel_left body)⟩
    · intro both
      rw [hashBase64, both.2, ← hashBase64]

/-- A login works for short names without special characters, and passwords whose hash
does not depend on what is behind their first NUL. -/
theorem delivered_iff (sha : Sha256) (fails : List Bool) (connected : connect true fails = false) (reply : Reply)
    (buffer : Block maxBuffer) (id pw : List UInt8) :
    ((doLogin sha fails reply buffer id pw).InBounds localSize ∧
        ∃ sent, (doLogin sha fails reply buffer id pw).value.sent = some sent ∧ Delivered sha id pw sent) ↔
      id.length ≤ 978 ∧ 0 ∉ id ∧ space ∉ id ∧ newline ∉ id ∧ sha.hash (cString pw) = sha.hash pw := by
  have copied := copied_iff sha id pw
  have special := parts_iff id (hashBase64 sha pw)
    ⟨hashBase64_plain sha pw (by decide), hashBase64_plain sha pw (by decide)⟩
  rw [doLogin_inBounds_iff sha reply buffer id pw connected]
  constructor
  · intro ⟨short, sent, handed, delivered⟩
    rw [doLogin_sent sha reply buffer id pw connected short] at handed
    have same := (Option.some.inj handed).trans delivered.whole
    have parts := delivered.parts
    rw [delivered.whole, special] at parts
    exact ⟨short, (copied.mp same).1, parts.1, parts.2, (copied.mp same).2⟩
  · intro ⟨short, nonzero, noSpace, noNewline, digest⟩
    apply And.intro short
    use line id (hashBase64 sha pw)
    rw [doLogin_sent sha reply buffer id pw connected short, copied.mpr ⟨nonzero, digest⟩]
    exact ⟨rfl, rfl, special.mpr ⟨noSpace, noNewline⟩⟩

/-- A hash function that is right for the empty password. -/
def emptySha : Sha256 where
  hash _ :=
    [0xe3, 0xb0, 0xc4, 0x42, 0x98, 0xfc, 0x1c, 0x14, 0x9a, 0xfb, 0xf4, 0xc8, 0x99, 0x6f, 0xb9, 0x24,
     0x27, 0xae, 0x41, 0xe4, 0x64, 0x9b, 0x93, 0x4c, 0xa4, 0x95, 0x99, 0x1b, 0x78, 0x52, 0xb8, 0x55]
  hash_length _ := rfl

def accepted : Reply := ⟨[48], by decide⟩

/-- The name `jen`, on the second endpoint tried. -/
theorem delivered_jen :
    (doLogin emptySha [true, false] accepted (fun _ => 0) [106, 101, 110] []).InBounds localSize ∧
      ∃ sent, (doLogin emptySha [true, false] accepted (fun _ => 0) [106, 101, 110] []).value.sent = some sent ∧
        Delivered emptySha [106, 101, 110] [] sent :=
  (delivered_iff emptySha [true, false] rfl accepted (fun _ => 0) [106, 101, 110] []).mpr (by decide)

/-- A name of 979 characters overruns the array. -/
theorem delivered_fails :
    ¬ ((doLogin emptySha [false] accepted (fun _ => 0) (List.replicate 979 97) []).InBounds localSize ∧
      ∃ sent, (doLogin emptySha [false] accepted (fun _ => 0) (List.replicate 979 97) []).value.sent = some sent ∧
        Delivered emptySha (List.replicate 979 97) [] sent) := by
  intro both
  have short := (doLogin_inBounds_iff emptySha accepted (fun _ => 0) (List.replicate 979 97) [] rfl).mp both.1
  rw [List.length_replicate] at short
  omega

end GameServer.Login
