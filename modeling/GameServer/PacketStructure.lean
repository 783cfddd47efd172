import GameServer.Base.Access
import GameServer.Base.Decimal

set_option autoImplicit false

/- packet_events.h and packet_structure.h, in the server's and in the client's copy.
`wchar_t` has two bytes, `unsigned int` and `size_t` four, all little-endian. -/
namespace GameServer

open Base

abbrev UINT := UInt32

/-- `enum class PACKET_EVENT : UINT`. A cast from UINT may hold any other value, so
headers keep the number and only the named events are listed here. -/
inductive PacketEvent where
  | gameStart
  | loadInfo
  | objectStatech
  | tester
  deriving DecidableEq, Repr

def PacketEvent.code : PacketEvent → UINT
  | .gameStart => 0
  | .loadInfo => 1
  | .objectStatech => 2
  | .tester => 3

inductive Side where
  | server
  | client
  deriving DecidableEq, Repr

abbrev headerLen : Nat := 8

/-- `boost::array<wchar_t, 1024>`, as its bytes. -/
abbrev WArray := Block 2048

/-- The arrays the packet code touches: the receive buffer, the packet being parsed,
the local array of Make_Body, the text handed to a constructor, the packet it fills. -/
inductive Place where
  | received
  | packet
  | buf
  | source
  | made
  deriving DecidableEq, Repr

structure Packet where
  data : WArray
  len : UINT

def Packet.length (p : Packet) : Nat := p.len.toNat

/-- The first `length()` bytes, which is what `send` hands to the socket. -/
def Packet.wire (p : Packet) : List UInt8 := p.data.slice 0 p.length

/-- Packet(boost::array<wchar_t, 1024>& data) : _data(data), with `_len` left at 0. -/
def Packet.ofArray (data : WArray) : Packet := ⟨data, 0⟩

/-- The memory behind `s.c_str()`: the characters, the terminator, then anything. -/
def cStr (s : List UInt16) (after : Nat → UInt16) (index : Nat) : UInt16 :=
  if index = s.length then 0 else (s[index]?).getD (after index)

structure Header where
  packetLen : UINT
  packetEvent : UINT
  deriving DecidableEq, Repr

/-- Why Make_Body throws: the text archive found no number where it wanted one. -/
inductive ArchiveException where
  | inputStreamError
  deriving DecidableEq, Repr

/-- The digits of a number at the head of a text, read into a 32-bit unsigned. -/
def readUnsigned (text : List UInt16) : Option UINT :=
  if Decimal.run text ≠ [] ∧ Decimal.value (Decimal.run text) < 2 ^ 32 then
    some (UInt32.ofNat (Decimal.value (Decimal.run text)))
  else none

/-- Numbers in decimal, each followed by one space. -/
def tokens (numbers : List UINT) : List UInt16 := numbers.flatMap fun n => Decimal.digits n.toNat ++ [32]

/-- boost::archive::text_woarchive and text_wiarchive without header, at `test`. The
class information is a fixed list of numbers; the member `t` comes last, and nothing
follows it. -/
structure TextArchive where
  classInfo : List UINT
  write : UINT → List UInt16
  read : List UInt16 → Option UINT
  write_eq : ∀ t, write t = tokens classInfo ++ Decimal.digits t.toNat
  read_eq : ∀ text, text.head?.any Decimal.isDigit → read (tokens classInfo ++ text) = readUnsigned text
  /-- The numbers in front of `t` are few enough for the text to fit a packet. -/
  short : classInfo.length ≤ 40

theorem tokens_length_le (numbers : List UINT) : (tokens numbers).length ≤ 11 * numbers.length := by
  induction numbers with
  | nil => exact Nat.le_refl _
  | cons n numbers ih =>
      have bound := Decimal.digits_length_le n
      unfold tokens at ih ⊢
      simp only [List.flatMap_cons, List.length_append, List.length_cons, List.length_nil]
      omega

namespace TextArchive

/-- The number of characters `test` is written with. -/
def size (ar : TextArchive) (t : UINT) : Nat := (ar.write t).length

/-- Two numbers of class information, as for an object of a class with default traits. -/
def boost : TextArchive where
  classInfo := [0, 0]
  write t := tokens [0, 0] ++ Decimal.digits t.toNat
  read text := if text.take 4 = tokens [0, 0] then readUnsigned (text.drop 4) else none
  write_eq _ := rfl
  read_eq text _ := by
    have front : (tokens [0, 0] ++ text).take 4 = tokens [0, 0] := List.take_left' rfl
    have back : (tokens [0, 0] ++ text).drop 4 = text := List.drop_left' rfl
    rw [front, back, if_pos rfl]
  short := by decide

theorem size_eq (ar : TextArchive) (t : UINT) :
    ar.size t = (tokens ar.classInfo).length + (Decimal.digits t.toNat).length := by
  rw [size, ar.write_eq, List.length_append]

theorem size_bounds (ar : TextArchive) (t : UINT) : 1 ≤ ar.size t ∧ ar.size t ≤ 450 := by
  have front := tokens_length_le ar.classInfo
  have short := ar.short
  have long := Decimal.digits_length_le t
  have some := Decimal.digits_length_pos t.toNat
  rw [size_eq]
  omega

/-- No character of the text is the terminator. -/
theorem ne_zero_of_mem_write (ar : TextArchive) (t : UINT) {c : UInt16} (member : c ∈ ar.write t) :
    c ≠ 0 := by
  have digit {n : Nat} (inside : c ∈ Decimal.digits n) : c ≠ 0 := by
    rintro rfl
    have := Decimal.isDigit_of_mem_digits inside
    revert this
    decide
  rw [ar.write_eq, List.mem_append] at member
  rcases member with inFront | inNumber
  · obtain ⟨n, _, token⟩ := List.mem_flatMap.mp inFront
    rcases List.mem_append.mp token with inside | space
    · exact digit inside
    · rw [List.mem_singleton.mp space]
      decide
  · exact digit inNumber

end TextArchive

namespace Server

/-- Packet(PACKET_EVENT pevent, const wchar_t* data, UINT len). The length is doubled
in place: it is a byte count in the header and a character count for wmemcpy. -/
def encode (before : WArray) (pevent : UINT) (data : Nat → UInt16) (len : UINT) : Traced Place Packet := do
  let len := len * 2
  let array ← Traced.write .made before 0 (bytes32 pevent)
  let array ← Traced.write .made array 4 (bytes32 len)
  Traced.touch .source 0 (2 * len.toNat)
  let array ← Traced.write .made array headerLen (wideBytes ((List.range len.toNat).map data))
  pure ⟨array, UInt32.ofNat headerLen + len⟩

/-- test::Make_packet. `before` and `after` are what the new packet and the memory
behind the serialised text held. -/
def makePacket (ar : TextArchive) (before : WArray) (after : Nat → UInt16) (t : UINT) : Traced Place Packet :=
  encode before PacketEvent.tester.code (cStr (ar.write t) after) (UInt32.ofNat (ar.size t))

/-- test::Make_Body on the characters of `packet` from `body` on; `buf` is the local
array. -/
def makeBody (ar : TextArchive) (packet : WArray) (body : Nat) (len : UINT) (buf : WArray) :
    Traced Place (Except ArchiveException UINT) := do
  let chars ← Traced.readWides .packet packet body len.toNat
  let buf ← Traced.write .buf buf 0 (wideBytes chars)
  let buf ← Traced.write .buf buf (2 * len.toNat) (bytes16 0)
  let text ← Traced.readText .buf buf
  pure ((ar.read text).elim (.error .inputStreamError) .ok)

end Server

namespace Client

abbrev wstrRealen : UINT := 2
abbrev headerIdx : Nat := 4

/-- `_len` lies right behind `_data`: what it is after `bytes` were copied to `_data` from
byte `start` on. -/
def lenBehind (_len : UINT) (start : Nat) (bytes : List UInt8) : UINT :=
  Block.word (Block.store (Block.store (fun _ => 0 : Block 4) 0 (bytes32 _len)) 0 (bytes.drop (2048 - start))) 0

/-- The client's copy of the constructor. It sets `_len` first, so that a body which does
not fit `_data` overwrites it. -/
def encode (before : WArray) (pevent : UINT) (data : Nat → UInt16) (len : UINT) : Traced Place Packet := do
  let len := len * wstrRealen
  let _len := UInt32.ofNat headerLen + len
  let array ← Traced.write .made before 0 (bytes32 pevent)
  let array ← Traced.write .made array 4 (bytes32 len)
  Traced.touch .source 0 (2 * len.toNat)
  let body := wideBytes ((List.range len.toNat).map data)
  let array ← Traced.write .made array (2 * headerIdx) body
  pure ⟨array, lenBehind _len (2 * headerIdx) body⟩

def makePacket (ar : TextArchive) (before : WArray) (after : Nat → UInt16) (t : UINT) : Traced Place Packet :=
  encode before PacketEvent.tester.code (cStr (ar.write t) after) (UInt32.ofNat (ar.size t))

/-- The client's Make_Body sets no terminator of its own. -/
def makeBody (ar : TextArchive) (packet : WArray) (body : Nat) (len : UINT) (buf : WArray) :
    Traced Place (Except ArchiveException UINT) := do
  let chars ← Traced.readWides .packet packet body len.toNat
  let buf ← Traced.write .buf buf 0 (wideBytes chars)
  let text ← Traced.readText .buf buf
  pure ((ar.read text).elim (.error .inputStreamError) .ok)

end Client

/-- What a peer reads off the wire: event, length in bytes, characters. -/
def wireForm (pevent : UINT) (s : List UInt16) : List UInt8 :=
  bytes32 pevent ++ bytes32 (UInt32.ofNat (2 * s.length)) ++ wideBytes s

@[simp] theorem wireForm_length (pevent : UINT) (s : List UInt16) :
    (wireForm pevent s).length = 8 + 2 * s.length := by
  simp only [wireForm, List.length_append, bytes32_length, wideBytes_length]

theorem cStr_inside (s : List UInt16) (after : Nat → UInt16) (index : Nat) (inside : index < s.length) :
    cStr s after index = s[index] := by
  have notEnd : index ≠ s.length := Nat.ne_of_lt inside
  simp only [cStr, notEnd, ↓reduceIte, List.getElem?_eq_getElem inside, Option.getD_some]

theorem double_toNat (n : Nat) (small : n ≤ 1020) : (UInt32.ofNat n * 2).toNat = 2 * n := by
  simp only [UInt32.toNat_mul, UInt32.toNat_ofNat', UInt32.reduceToNat]
  omega

theorem byteCount_toNat (n : Nat) (small : n ≤ 1020) : (UInt32.ofNat (2 * n)).toNat = 2 * n := by
  rw [UInt32.toNat_ofNat']
  omega

private theorem double_eq (n : Nat) (small : n ≤ 1020) : UInt32.ofNat n * 2 = UInt32.ofNat (2 * n) := by
  apply UInt32.toNat.inj
  rw [double_toNat n small, byteCount_toNat n small]

/-- Both copies of the constructor fill `_data` alike. -/
theorem Client.encode_data (before : WArray) (pevent : UINT) (data : Nat → UInt16) (len : UINT) :
    (Client.encode before pevent data len).value.data = (Server.encode before pevent data len).value.data := rfl

theorem Client.encode_len (before : WArray) (pevent : UINT) (data : Nat → UInt16) (len : UINT) :
    (Client.encode before pevent data len).value.len = lenBehind (UInt32.ofNat headerLen + len * wstrRealen) 8
      (wideBytes ((List.range (len * wstrRealen).toNat).map data)) := rfl

/-- They make the same packet of a body that leaves `_len` alone. -/
theorem Client.encode_value (before : WArray) (pevent : UINT) (data : Nat → UInt16) (n : Nat) (short : n ≤ 510) :
    (Client.encode before pevent data (UInt32.ofNat n)).value =
      (Server.encode before pevent data (UInt32.ofNat n)).value := by
  have doubled : (UInt32.ofNat n * wstrRealen).toNat = 2 * n := double_toNat n (by omega)
  have inside : (wideBytes ((List.range (2 * n)).map data)).drop (2048 - 8) = [] := by
    rw [List.drop_eq_nil_iff, wideBytes_length, List.length_map, List.length_range]
    omega
  have kept (_len : UINT) : lenBehind _len 8 (wideBytes ((List.range (2 * n)).map data)) = _len := by
    rw [lenBehind, inside, Block.word_store_frame _ 0 [] 0 (Or.inr (Nat.le_refl 0))]
    exact Block.word_of_slice _ 0 _ (Block.slice_store _ 0 (bytes32 _len) (by simp))
  have same : (Client.encode before pevent data (UInt32.ofNat n)).value.len =
      (Server.encode before pevent data (UInt32.ofNat n)).value.len := by
    rw [Client.encode_len, doubled, kept]
    rfl
  calc (Client.encode before pevent data (UInt32.ofNat n)).value
      = ⟨_, (Client.encode before pevent data (UInt32.ofNat n)).value.len⟩ := rfl
    _ = (Server.encode before pevent data (UInt32.ofNat n)).value := by
      rw [same]
      rfl

/-- Of a longer body the client takes two characters for the length of its packet. -/
theorem Client.encode_len_overwritten (before : WArray) (pevent : UINT) (data : Nat → UInt16) (n : Nat)
    (long : 510 < n) (small : n ≤ 1020) :
    (Client.encode before pevent data (UInt32.ofNat n)).value.len.toNat =
      (data 1020).toNat + 65536 * (data 1021).toNat := by
  have doubled : (UInt32.ofNat n * wstrRealen).toNat = 2 * n := double_toNat n small
  obtain ⟨more, count⟩ : ∃ more, 2 * n = 1020 + (2 + more) := ⟨2 * n - 1022, by omega⟩
  have behind : (wideBytes ((List.range (2 * n)).map data)).drop (2048 - 8) =
      wideBytes (data 1020 :: data 1021 :: (List.range more).map fun index => data (1020 + (2 + index))) := by
    rw [show 2048 - 8 = 2 * 1020 from rfl, wideBytes_drop, count, List.range_add, List.map_append,
      List.drop_left' (by simp), List.range_add]
    simp only [List.map_append, List.map_map]
    rfl
  have low := (data 1020).toNat_lt
  have high := (data 1021).toNat_lt
  rw [Client.encode_len, doubled, lenBehind, behind]
  change (word32 _ _ _ _).toNat = _
  simp only [Block.load, Block.store, wideBytes]
  simp [word32]
  omega

namespace Server

theorem encode_length (before : WArray) (pevent : UINT) (data : Nat → UInt16) (n : Nat)
    (small : n ≤ 1020) :
    (encode before pevent data (UInt32.ofNat n)).value.length = 8 + 2 * n := by
  have doubled := double_toNat n small
  change (UInt32.ofNat headerLen + UInt32.ofNat n * 2).toNat = _
  rw [UInt32.toNat_add, doubled]
  change (8 + 2 * n) % 2 ^ 32 = _
  omega

theorem encode_wide (before : WArray) (pevent : UINT) (data : Nat → UInt16) (n index : Nat)
    (small : n ≤ 1020) (inside : index < 2 * n) (fits : 4 + index < 1024) :
    (encode before pevent data (UInt32.ofNat n)).value.data.wide (4 + index) = data index := by
  change Block.wide (Block.store _ (2 * 4) (wideBytes _)) (4 + index) = _
  rw [double_toNat n small, Block.wide_store_inside _ _ _ _ (by simpa using inside) (by omega)]
  simp only [List.getElem_map, List.getElem_range]

theorem encode_header (before : WArray) (pevent : UINT) (data : Nat → UInt16) (n : Nat)
    (small : n ≤ 1020) :
    (encode before pevent data (UInt32.ofNat n)).value.data.slice 0 8 =
      bytes32 pevent ++ bytes32 (UInt32.ofNat (2 * n)) := by
  have length := double_eq n small
  change Block.slice (Block.store (Block.store (Block.store before 0 (bytes32 pevent)) 4
    (bytes32 (UInt32.ofNat n * 2))) 8 _) 0 (4 + 4) = _
  rw [Block.slice_store_frame _ _ _ _ _ (Or.inl (Nat.le_refl 8)), Block.slice_add,
    Block.slice_store_frame _ 4 _ 0 4 (Or.inl (Nat.le_refl 4)), length]
  have event : (before.store 0 (bytes32 pevent)).slice 0 4 = bytes32 pevent :=
    Block.slice_store before 0 (bytes32 pevent) (by simp)
  have stored := Block.slice_store (before.store 0 (bytes32 pevent)) 4
    (bytes32 (UInt32.ofNat (2 * n))) (by simp)
  rw [bytes32_length] at stored
  rw [event, stored]

theorem encode_body (before : WArray) (pevent : UINT) (s : List UInt16) (after : Nat → UInt16)
    (small : s.length ≤ 1020) :
    (encode before pevent (cStr s after) (UInt32.ofNat s.length)).value.data.wides 4 s.length = s := by
  apply List.ext_getElem
  · exact Block.wides_length _ _ _
  · intro index _ inside
    rw [Block.wides_getElem, encode_wide _ _ _ _ _ small (by omega) (by omega),
      cStr_inside s after index inside]

/-- The first `length()` bytes are the header and the characters of `s`; neither the
memory behind `s` nor what the packet held before reaches them. -/
theorem encode_wire (before : WArray) (pevent : UINT) (s : List UInt16) (after : Nat → UInt16)
    (small : s.length ≤ 1020) :
    (encode before pevent (cStr s after) (UInt32.ofNat s.length)).value.wire = wireForm pevent s := by
  have body := encode_body before pevent s after small
  rw [Packet.wire, encode_length _ _ _ _ small, Block.slice_add, encode_header _ _ _ _ small, wireForm]
  congr 1
  exact Block.slice_wides _ 4 s.length s rfl body

end Server

end GameServer
