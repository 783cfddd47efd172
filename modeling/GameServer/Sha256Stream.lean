import GameServer.Sha256Compress

set_option autoImplicit false

/- The hash object refines a hash of bit strings: between two calls it is given bytes, has a
digest, or is corrupted. -/
namespace GameServer.Sha256

open Base
open Base.Sha2 (Words)

/-- What has been compressed, and the bytes of the block that wait. -/
def absorbed (ctx : Sha256) : Absorbed Words UInt8 :=
  ⟨ctx.intermediateHash, ctx.messageBlock.slice 0 ctx.messageBlockIndex⟩

def absorb : Absorbed Words UInt8 → List UInt8 → Absorbed Words UInt8 := Absorbed.absorb Sha2.compress blockSize

/-- The bits counted so far. -/
def lengthBits (ctx : Sha256) : Nat := 4294967296 * ctx.lengthHigh.toNat + ctx.lengthLow.toNat

section Writes

/-- Only the block has been written, at the end of what it holds. -/
structure Filled (ctx : Sha256) (bytes : List UInt8) (after : Sha256) : Prop where
  rest : ∃ block, after = { ctx with messageBlock := block, messageBlockIndex := ctx.messageBlockIndex + bytes.length }
  slice : after.messageBlock.slice 0 after.messageBlockIndex = ctx.messageBlock.slice 0 ctx.messageBlockIndex ++ bytes

theorem Filled.index {ctx after : Sha256} {bytes : List UInt8} (filled : Filled ctx bytes after) :
    after.messageBlockIndex = ctx.messageBlockIndex + bytes.length := by
  obtain ⟨block, same⟩ := filled.rest
  rw [same]

theorem Filled.trans {ctx between after : Sha256} {bytes more : List UInt8} (first : Filled ctx bytes between)
    (second : Filled between more after) : Filled ctx (bytes ++ more) after where
  rest := by
    obtain ⟨block, same⟩ := first.rest
    obtain ⟨block', same'⟩ := second.rest
    use block'
    rw [same', same, List.length_append, Nat.add_assoc]
  slice := by rw [second.slice, first.slice, List.append_assoc]

theorem Filled.refl (ctx : Sha256) : Filled ctx [] ctx where
  rest := ⟨ctx.messageBlock, rfl⟩
  slice := (List.append_nil _).symm

theorem Filled.absorbed {ctx after : Sha256} {bytes : List UInt8} (filled : Filled ctx bytes after) :
    after.absorbed = ⟨ctx.intermediateHash, ctx.absorbed.pending ++ bytes⟩ := by
  have slice := filled.slice
  obtain ⟨block, same⟩ := filled.rest
  rw [Sha256.absorbed, slice, same]
  rfl

theorem slice_store_end (block : Block blockSize) (index : Nat) (bytes : List UInt8)
    (inside : index + bytes.length ≤ blockSize) :
    (block.store index bytes).slice 0 (index + bytes.length) = block.slice 0 index ++ bytes := by
  have written := Block.slice_store block index bytes inside
  have kept := Block.slice_store_frame block index bytes 0 index (Or.inl (Nat.le_of_eq (Nat.zero_add _)))
  rw [Block.slice_add, Nat.zero_add, written, kept]

theorem store_ensures (ctx : Sha256) (byte : UInt8) (inside : ctx.messageBlockIndex < blockSize) :
    (ctx.store byte).Ensures size (Filled ctx [byte]) := by
  apply Traced.Ensures.bind (Traced.ensures_write ctx.messageBlock inside)
  intro block written
  apply Traced.ensures_pure
  rw [written]
  exact ⟨⟨_, rfl⟩, slice_store_end ctx.messageBlock ctx.messageBlockIndex [byte] inside⟩

theorem zeroTo_ensures (limit : Nat) (ctx : Sha256) (count : Nat) (below : limit ≤ blockSize)
    (enough : ctx.messageBlockIndex + count = limit) :
    (zeroTo limit ctx count).Ensures size (Filled ctx (List.replicate count 0)) := by
  induction count generalizing ctx with
  | zero => exact Traced.ensures_pure (Filled.refl ctx)
  | succ count ih =>
      rw [zeroTo, if_pos (by omega)]
      apply Traced.Ensures.bind (store_ensures ctx 0 (by omega))
      intro between first
      have index : between.messageBlockIndex = ctx.messageBlockIndex + 1 := first.index
      apply (ih between (by omega)).imp
      intro after second
      exact first.trans second

theorem processMessageBlock_ensures (ctx : Sha256) :
    ctx.processMessageBlock.Ensures size
      (· = { ctx with
        intermediateHash := Sha2.compress ctx.intermediateHash (ctx.messageBlock.slice 0 blockSize)
        messageBlockIndex := 0 }) := by
  apply Traced.Ensures.bind (Traced.ensures_touch (Nat.le_of_eq (Nat.zero_add _)))
  intro _ _
  apply Traced.ensures_pure
  rw [compress_eq]

end Writes

section Input

/-- Every byte of `bytes` has been given, and nothing else. -/
structure Absorbing (ctx : Sha256) (bytes : List UInt8) : Prop where
  computed : ctx.computed = false
  corrupted : ctx.corrupted = false
  length : ctx.lengthBits = 8 * bytes.length
  absorbed : ctx.absorbed = absorb ⟨Sha2.initial, []⟩ bytes

theorem Absorbing.index {ctx : Sha256} {bytes : List UInt8} (absorbing : Absorbing ctx bytes) :
    ctx.messageBlockIndex = bytes.length % blockSize := by
  have waiting := congrArg (fun state => state.pending.length) absorbing.absorbed
  have length := Absorbed.absorb_pending_length Sha2.compress blockSize ⟨Sha2.initial, []⟩ bytes (by decide)
  rw [List.length_nil, Nat.zero_add] at length
  rw [← length]
  exact (Block.slice_length _ _ _).symm.trans waiting

theorem Absorbing.inside {ctx : Sha256} {bytes : List UInt8} (absorbing : Absorbing ctx bytes) :
    ctx.messageBlockIndex < blockSize := by
  rw [absorbing.index]
  exact Nat.mod_lt _ (by decide)

/-- The counter counts modulo 2 ^ 64, and tells when it comes round. -/
theorem addLength_eq (ctx : Sha256) (length : UInt32) :
    ∃ low high, ctx.addLength length = { ctx with
        lengthLow := low
        lengthHigh := high
        corrupted := decide (18446744073709551616 ≤ ctx.lengthBits + length.toNat) } ∧
      4294967296 * high.toNat + low.toNat = (ctx.lengthBits + length.toNat) % 18446744073709551616 := by
  have low := ctx.lengthLow.toNat_lt
  have high := ctx.lengthHigh.toNat_lt
  have added := length.toNat_lt
  have sum : (ctx.lengthLow + length).toNat = (ctx.lengthLow.toNat + length.toNat) % 4294967296 := UInt32.toNat_add _ _
  have carried : (ctx.lengthHigh + 1).toNat = (ctx.lengthHigh.toNat + 1) % 4294967296 := UInt32.toNat_add _ _
  use ctx.lengthLow + length
  by_cases carry : ctx.lengthLow + length < ctx.lengthLow
  · use ctx.lengthHigh + 1
    have flag : (ctx.lengthHigh + 1 == 0) = decide (18446744073709551616 ≤ ctx.lengthBits + length.toNat) := by
      rw [Bool.eq_iff_iff, beq_iff_eq, decide_eq_true_iff, ← UInt32.toNat_inj, carried, UInt32.toNat_zero, lengthBits]
      rw [UInt32.lt_iff_toNat_lt, sum] at carry
      omega
    constructor
    · rw [addLength, if_pos carry, flag]
    · rw [UInt32.lt_iff_toNat_lt, sum] at carry
      rw [sum, carried, lengthBits]
      omega
  · use ctx.lengthHigh
    have flag : false = decide (18446744073709551616 ≤ ctx.lengthBits + length.toNat) := by
      symm
      rw [decide_eq_false_iff_not, lengthBits]
      rw [UInt32.lt_iff_toNat_lt, sum] at carry
      omega
    constructor
    · rw [addLength, if_neg carry, ← flag]
    · rw [UInt32.lt_iff_toNat_lt, sum] at carry
      rw [sum, lengthBits]
      omega

theorem Absorbing.push {ctx after : Sha256} {bytes : List UInt8} (absorbing : Absorbing ctx bytes) (byte : UInt8)
    (computed : after.computed = ctx.computed) (corrupted : after.corrupted = false)
    (length : after.lengthBits = 8 * (bytes.length + 1))
    (absorbed : after.absorbed = Absorbed.push Sha2.compress blockSize ctx.absorbed byte) :
    Absorbing after (bytes ++ [byte]) where
  computed := computed.trans absorbing.computed
  corrupted := corrupted
  length := by rw [length, List.length_append, List.length_singleton]
  absorbed := by
    rw [absorbed, absorbing.absorbed, absorb, Absorbed.absorb_append]
    rfl

/-- As far as the counter goes, all bytes are taken; behind it the object is corrupted. -/
def Fed (bytes : List UInt8) (ctx : Sha256) : Prop :=
  if 8 * bytes.length < 18446744073709551616 then Absorbing ctx bytes else ctx.corrupted = true

theorem inputByte_ensures {ctx : Sha256} {bytes : List UInt8} (absorbing : Absorbing ctx bytes) (byte : UInt8) :
    (ctx.inputByte byte).Ensures size (Fed (bytes ++ [byte])) := by
  have plain : byte &&& 0xFF = byte := UInt8.and_neg_one
  have inside := absorbing.inside
  rw [inputByte, plain]
  apply Traced.Ensures.bind (store_ensures ctx byte inside)
  intro stored filled
  obtain ⟨low, high, counted, value⟩ := addLength_eq stored 8
  have index : stored.messageBlockIndex = ctx.messageBlockIndex + 1 := filled.index
  have pending : ctx.absorbed.pending.length = ctx.messageBlockIndex := Block.slice_length _ _ _
  have waiting := filled.absorbed
  have kept : stored.computed = ctx.computed ∧ stored.lengthBits = ctx.lengthBits := by
    obtain ⟨block, same⟩ := filled.rest
    rw [same]
    exact ⟨rfl, rfl⟩
  have eight : (8 : UInt32).toNat = 8 := rfl
  have length : (bytes ++ [byte]).length = bytes.length + 1 := List.length_append
  rw [kept.2, absorbing.length, eight, ← Nat.mul_succ] at counted value
  by_cases more : 8 * (bytes.length + 1) < 18446744073709551616
  · rw [decide_eq_false (Nat.not_le.mpr more)] at counted
    rw [Nat.mod_eq_of_lt more] at value
    have fed (after : Sha256) (next : Absorbing after (bytes ++ [byte])) : Fed (bytes ++ [byte]) after := by
      rw [Fed, length, if_pos more]
      exact next
    simp only [counted]
    by_cases full : ctx.messageBlockIndex + 1 = blockSize
    · rw [if_pos (by rw [index, full]; rfl)]
      apply (processMessageBlock_ensures _).imp
      intro after same
      apply fed
      apply absorbing.push byte
      · rw [same]
        exact kept.1
      · rw [same]
      · rw [same]
        exact value
      · have block := congrArg Absorbed.pending waiting
        have hash := congrArg Absorbed.chain waiting
        simp only [Sha256.absorbed, index, full] at block hash
        rw [Absorbed.push_fills _ _ _ _ (by rw [pending, full]), same]
        simp only [Sha256.absorbed, block, hash]
        rfl
    · have openBlock : ctx.messageBlockIndex + 1 ≠ 64 := full
      rw [if_neg (by simpa [index, blockSize] using openBlock)]
      apply Traced.ensures_pure
      apply fed
      apply absorbing.push byte
      · exact kept.1
      · rfl
      · exact value
      · rw [Absorbed.push, if_neg (by rw [pending]; exact full)]
        exact waiting
  · rw [decide_eq_true (Nat.not_lt.mp more)] at counted
    simp only [counted]
    apply Traced.ensures_pure
    rw [Fed, length, if_neg more]

theorem inputLoop_ensures {ctx : Sha256} {bytes : List UInt8} (fed : Fed bytes ctx) (message : List UInt8) :
    (ctx.inputLoop message).Ensures size (Fed (bytes ++ message)) := by
  induction message generalizing ctx bytes with
  | nil =>
      rw [inputLoop, List.append_nil]
      exact Traced.ensures_pure fed
  | cons byte message ih =>
      have shift : bytes ++ byte :: message = bytes ++ [byte] ++ message := by
        rw [List.append_assoc, List.singleton_append]
      by_cases short : 8 * bytes.length < 18446744073709551616
      · rw [Fed, if_pos short] at fed
        rw [inputLoop, if_neg (by rw [fed.corrupted]; exact Bool.false_ne_true), shift]
        exact (inputByte_ensures fed byte).bind fun between next => ih next
      · rw [Fed, if_neg short] at fed
        rw [inputLoop, if_pos fed]
        apply Traced.ensures_pure
        rw [Fed, if_neg (by rw [List.length_append]; omega)]
        exact fed

end Input

section Final

/-- What the bits of an object's message are followed by, up to the end of the last block. -/
def tail (ctx : Sha256) (padByte : UInt8) : List UInt8 :=
  [padByte] ++ List.replicate ((119 - ctx.messageBlockIndex) % blockSize) 0 ++
    (wordBytes ctx.lengthHigh ++ wordBytes ctx.lengthLow)

theorem lengthBytes_length (high low : UInt32) : (wordBytes high ++ wordBytes low).length = 8 := rfl

theorem lastBlock_ensures (ctx : Sha256) (open_block : ctx.messageBlockIndex ≤ 56) :
    ctx.lastBlock.Ensures size fun after =>
      after.intermediateHash = (absorb ctx.absorbed (List.replicate (56 - ctx.messageBlockIndex) 0 ++
        (wordBytes ctx.lengthHigh ++ wordBytes ctx.lengthLow))).chain ∧ after.corrupted = ctx.corrupted := by
  apply Traced.Ensures.bind (zeroTo_ensures 56 ctx (56 - ctx.messageBlockIndex) (by decide) (by omega))
  intro filled zeros
  have index := zeros.index
  rw [List.length_replicate, Nat.add_sub_cancel' open_block] at index
  have waiting := zeros.absorbed
  have kept : filled.lengthHigh = ctx.lengthHigh ∧ filled.lengthLow = ctx.lengthLow ∧
      filled.corrupted = ctx.corrupted := by
    obtain ⟨block, same⟩ := zeros.rest
    rw [same]
    exact ⟨rfl, rfl, rfl⟩
  have fits (high low : UInt32) : 56 + (wordBytes high ++ wordBytes low).length ≤ blockSize := by
    rw [lengthBytes_length]
    exact Nat.le_refl _
  have write : (Traced.write Place.messageBlock filled.messageBlock 56
      (wordBytes filled.lengthHigh ++ wordBytes filled.lengthLow)).Ensures size
        (· = filled.messageBlock.store 56 (wordBytes filled.lengthHigh ++ wordBytes filled.lengthLow)) :=
    Traced.ensures_write _ (fits filled.lengthHigh filled.lengthLow)
  apply Traced.Ensures.bind write
  intro block written
  apply (processMessageBlock_ensures _).imp
  intro after same
  have whole : (filled.messageBlock.store 56 (wordBytes ctx.lengthHigh ++ wordBytes ctx.lengthLow)).slice 0 blockSize =
      filled.messageBlock.slice 0 56 ++ (wordBytes ctx.lengthHigh ++ wordBytes ctx.lengthLow) :=
    slice_store_end filled.messageBlock 56 _ (fits _ _)
  have pending := congrArg Absorbed.pending waiting
  have hash := congrArg Absorbed.chain waiting
  simp only [Sha256.absorbed, index] at pending hash
  have full : ctx.absorbed.pending.length + (List.replicate (56 - ctx.messageBlockIndex) (0 : UInt8) ++
      (wordBytes ctx.lengthHigh ++ wordBytes ctx.lengthLow)).length = blockSize := by
    rw [List.length_append, List.length_replicate, lengthBytes_length, Sha256.absorbed, Block.slice_length]
    unfold blockSize
    omega
  have fills := Absorbed.absorb_fills Sha2.compress blockSize ctx.absorbed _
    (by rw [Sha256.absorbed, Block.slice_length]; unfold blockSize; omega) full
  constructor
  · rw [absorb, fills, same]
    simp only [written, kept.1, kept.2.1]
    rw [whole, pending, hash, List.append_assoc]
    rfl
  · rw [same]
    exact kept.2.2

theorem padMessage_ensures (ctx : Sha256) (padByte : UInt8) (inside : ctx.messageBlockIndex < blockSize) :
    (ctx.padMessage padByte).Ensures size fun after =>
      after.intermediateHash = (absorb ctx.absorbed (ctx.tail padByte)).chain ∧ after.corrupted = ctx.corrupted := by
  have pending : ctx.absorbed.pending.length = ctx.messageBlockIndex := Block.slice_length _ _ _
  rw [padMessage]
  by_cases late : blockSize - 8 ≤ ctx.messageBlockIndex
  · rw [if_pos late]
    apply Traced.Ensures.bind (store_ensures ctx padByte inside)
    intro stored first
    have index : stored.messageBlockIndex = ctx.messageBlockIndex + 1 := first.index
    apply Traced.Ensures.bind (zeroTo_ensures blockSize stored _ (Nat.le_refl _) (by omega))
    intro zeroed zeros
    have both := first.trans zeros
    have waiting := both.absorbed
    have full : zeroed.messageBlockIndex = blockSize := by
      rw [zeros.index, List.length_replicate]
      omega
    have kept : zeroed.lengthHigh = ctx.lengthHigh ∧ zeroed.lengthLow = ctx.lengthLow ∧
        zeroed.corrupted = ctx.corrupted := by
      obtain ⟨block, same⟩ := both.rest
      rw [same]
      exact ⟨rfl, rfl, rfl⟩
    apply Traced.Ensures.bind (processMessageBlock_ensures zeroed)
    intro processed same
    have fills := Absorbed.absorb_fills Sha2.compress blockSize ctx.absorbed
      ([padByte] ++ List.replicate (blockSize - stored.messageBlockIndex) 0) (by rw [pending]; exact inside)
      (by rw [pending, List.length_append, List.length_singleton, List.length_replicate]; omega)
    have reached : processed.absorbed = absorb ctx.absorbed
        ([padByte] ++ List.replicate (blockSize - stored.messageBlockIndex) 0) := by
      have block := congrArg Absorbed.pending waiting
      have hash := congrArg Absorbed.chain waiting
      simp only [Sha256.absorbed, full] at block hash
      rw [absorb, fills, same]
      simp only [Sha256.absorbed, block, hash]
      rfl
    apply (lastBlock_ensures processed (by rw [same]; exact Nat.zero_le _)).imp
    intro after last
    have empty : processed.messageBlockIndex = 0 := by rw [same]
    have lengths : processed.lengthHigh = ctx.lengthHigh ∧ processed.lengthLow = ctx.lengthLow ∧
        processed.corrupted = ctx.corrupted := by
      rw [same]
      exact kept
    have joined : ctx.tail padByte = ([padByte] ++ List.replicate (blockSize - stored.messageBlockIndex) 0) ++
        (List.replicate (56 - processed.messageBlockIndex) 0 ++
          (wordBytes ctx.lengthHigh ++ wordBytes ctx.lengthLow)) := by
      have count : (119 - ctx.messageBlockIndex) % blockSize =
          blockSize - stored.messageBlockIndex + (56 - processed.messageBlockIndex) := by
        unfold blockSize at *
        omega
      rw [tail, count, ← List.replicate_append_replicate]
      simp only [List.append_assoc]
    rw [last.1, last.2, reached, lengths.1, lengths.2.1, lengths.2.2, joined]
    exact ⟨congrArg Absorbed.chain (Absorbed.absorb_append Sha2.compress blockSize _ _ _).symm, rfl⟩
  · rw [if_neg late]
    apply Traced.Ensures.bind (store_ensures ctx padByte inside)
    intro stored first
    have index : stored.messageBlockIndex = ctx.messageBlockIndex + 1 := first.index
    have room : stored.messageBlockIndex ≤ 56 := by
      unfold blockSize at late
      omega
    apply (lastBlock_ensures stored room).imp
    intro after last
    have kept : stored.lengthHigh = ctx.lengthHigh ∧ stored.lengthLow = ctx.lengthLow ∧
        stored.corrupted = ctx.corrupted := by
      obtain ⟨block, same⟩ := first.rest
      rw [same]
      exact ⟨rfl, rfl, rfl⟩
    have reached : stored.absorbed = absorb ctx.absorbed [padByte] := by
      rw [first.absorbed, absorb, Absorbed.absorb_waits]
      · rfl
      · rw [pending, List.length_singleton]
        unfold blockSize
        omega
    have zeros : (119 - ctx.messageBlockIndex) % blockSize = 56 - stored.messageBlockIndex := by
      unfold blockSize
      omega
    rw [last.1, last.2, reached, kept.1, kept.2.1, kept.2.2, tail, zeros, List.append_assoc]
    exact ⟨congrArg Absorbed.chain (Absorbed.absorb_append Sha2.compress blockSize _ _ _).symm, rfl⟩

theorem bytesBits_wordBytes (word : UInt32) : bytesBits (wordBytes word) = bigEndianBits 32 word.toNat := by
  have byte (shift : UInt32) (small : shift.toNat < 32) :
      byteBits (word >>> shift).toUInt8 = bigEndianBits 8 (word.toNat / 2 ^ shift.toNat) := by
    have value : (word >>> shift).toUInt8 = UInt8.ofNat (word.toNat / 2 ^ shift.toNat) := by
      rw [← Nat.shiftRight_eq_div_pow, ← Nat.mod_eq_of_lt small, ← UInt32.toNat_shiftRight]
      rfl
    rw [value, byteBits_ofNat]
  have lowest : byteBits word.toUInt8 = bigEndianBits 8 word.toNat := byteBits_ofNat word.toNat
  rw [show 32 = 8 + 8 + 8 + 8 from rfl, bigEndianBits_add, bigEndianBits_add, bigEndianBits_add, ← lowest]
  simp only [bytesBits, wordBytes, List.flatMap_cons, List.flatMap_nil, List.append_nil, List.append_assoc,
    Nat.div_div_eq_div_mul]
  rw [byte 24 (by decide), byte 16 (by decide), byte 8 (by decide)]
  rfl

/-- The bytes an object compresses for a message are the padded message. -/
theorem paddedBytes_eq (ctx : Sha256) (bytes : List UInt8) (rest : List Bool) (padByte : UInt8)
    (short : rest.length < 8) (index : ctx.messageBlockIndex = bytes.length % blockSize)
    (length : ctx.lengthBits = 8 * bytes.length + rest.length)
    (mark : byteBits padByte = rest ++ [true] ++ List.replicate (7 - rest.length) false) :
    Sha2.paddedBytes (bytesBits bytes ++ rest) = bytes ++ ctx.tail padByte := by
  apply Sha2.paddedBytes_eq
  have total : (bytesBits bytes ++ rest).length = ctx.lengthBits := by
    rw [List.length_append, bytesBits_length, length]
  have size : bytesBits (wordBytes ctx.lengthHigh ++ wordBytes ctx.lengthLow) = bigEndianBits 64 ctx.lengthBits := by
    have low := ctx.lengthLow.toNat_lt
    have high : ctx.lengthBits / 2 ^ 32 = ctx.lengthHigh.toNat := by rw [lengthBits]; omega
    have rest : ctx.lengthBits % 2 ^ 32 = ctx.lengthLow.toNat := by rw [lengthBits]; omega
    rw [bytesBits_append, bytesBits_wordBytes, bytesBits_wordBytes, show 64 = 32 + 32 from rfl, bigEndianBits_add, high,
      ← bigEndianBits_mod 32 ctx.lengthBits, rest]
  have zeros : List.replicate (7 - rest.length) false ++
        List.replicate (8 * ((119 - ctx.messageBlockIndex) % blockSize)) false =
      List.replicate ((959 - ctx.lengthBits % 512) % 512) false := by
    rw [List.replicate_append_replicate, index, length]
    congr 1
    unfold blockSize
    omega
  have single : bytesBits [padByte] = byteBits padByte := List.append_nil _
  rw [Sha2.padded, total, tail, bytesBits_append, bytesBits_append, bytesBits_append, single, mark, size,
    bytesBits_replicate_zero, ← zeros]
  simp only [List.append_assoc]

theorem finalize_ensures (ctx : Sha256) (padByte : UInt8) (inside : ctx.messageBlockIndex < blockSize) :
    (ctx.finalize padByte).Ensures size fun after =>
      after.intermediateHash = (absorb ctx.absorbed (ctx.tail padByte)).chain ∧ after.corrupted = ctx.corrupted ∧
        after.computed = true := by
  apply Traced.Ensures.bind (padMessage_ensures ctx padByte inside)
  intro padded reached
  have write : (Traced.write Place.messageBlock padded.messageBlock 0 (List.replicate blockSize 0)).Ensures size
      fun _ => True := by
    apply (Traced.ensures_write padded.messageBlock _).imp
    · intro _ _
      trivial
    · rw [List.length_replicate]
      exact Nat.le_of_eq (Nat.zero_add _)
  apply Traced.Ensures.bind write
  intro block _
  exact Traced.ensures_pure ⟨reached.1, reached.2, rfl⟩

def digest (ctx : Sha256) : List UInt8 := ctx.intermediateHash.toList.flatMap wordBytes

theorem wordBytes_eq (word : UInt32) : wordBytes word = Sha2.wordBytes word := by
  rw [Sha2.wordBytes, ← bytesBits_wordBytes]
  exact (packBits_bytesBits (wordBytes word)).symm

/-- The object holds the digest of a message. -/
structure Computed (message : List Bool) (ctx : Sha256) : Prop where
  computed : ctx.computed = true
  corrupted : ctx.corrupted = false
  digest : ctx.digest = Sha2.digest message

theorem finalize_computed {ctx counted : Sha256} {bytes : List UInt8} (absorbing : Absorbing ctx bytes)
    (rest : List Bool)
    (padByte : UInt8) (short : rest.length < 8) (same : counted.absorbed = ctx.absorbed)
    (index : counted.messageBlockIndex = ctx.messageBlockIndex) (corrupted : counted.corrupted = false)
    (length : counted.lengthBits = 8 * bytes.length + rest.length)
    (mark : byteBits padByte = rest ++ [true] ++ List.replicate (7 - rest.length) false) :
    (counted.finalize padByte).Ensures size (Computed (bytesBits bytes ++ rest)) := by
  apply (finalize_ensures counted padByte (by rw [index]; exact absorbing.inside)).imp
  intro after reached
  have padded := paddedBytes_eq counted bytes rest padByte short (index.trans absorbing.index) length mark
  constructor
  · exact reached.2.2
  · exact reached.2.1.trans corrupted
  · have chain : after.intermediateHash = (absorb ⟨Sha2.initial, []⟩ (bytes ++ counted.tail padByte)).chain := by
      rw [reached.1, same, absorbing.absorbed]
      exact congrArg Absorbed.chain (Absorbed.absorb_append Sha2.compress blockSize _ _ _).symm
    rw [digest, chain, ← padded, Sha2.digest]
    apply List.flatMap_congr
    intro word _
    exact wordBytes_eq word

end Final

/-- What an object stands for between two calls. -/
inductive Hashing where
  | absorbing (bytes : List UInt8)
  | computed (message : List Bool)
  | corrupted

namespace Hashing

/-- The first bits of the byte finish a message; 2 ^ 64 bits of input are too many. -/
def next : Hashing → Call → Hashing
  | _, .reset => .absorbing []
  | .absorbing bytes, .input message =>
      if 8 * (bytes ++ message).length < 18446744073709551616 then .absorbing (bytes ++ message) else .corrupted
  | .absorbing bytes, .finalBits messageBits length =>
      if length = 0 then .absorbing bytes
      else if length < 8 then .computed (bytesBits bytes ++ (byteBits messageBits).take length.toNat)
      else .corrupted
  | .absorbing bytes, .result => .computed (bytesBits bytes)
  | .computed message, .finalBits _ length => if length = 0 then .computed message else .corrupted
  | h, _ => h

def message : Hashing → Option (List Bool)
  | .absorbing bytes => some (bytesBits bytes)
  | .computed message => some message
  | .corrupted => none

/-- What each `result` among the calls writes. -/
def digests : Hashing → List Call → List (Option (List UInt8))
  | _, [] => []
  | h, .result :: rest => h.message.map Sha2.digest :: digests (h.next .result) rest
  | h, c :: rest => digests (h.next c) rest

end Hashing

section Calls

/-- The object is in the state the calls have led to. -/
def Represents (ctx : Sha256) : Hashing → Prop
  | .absorbing bytes => 8 * bytes.length < 18446744073709551616 ∧ Absorbing ctx bytes
  | .computed message => Computed message ctx
  | .corrupted => ctx.corrupted = true

theorem fresh_represents (ctx : Sha256) : Represents (reset ctx) (.absorbing []) :=
  ⟨by decide, rfl, rfl, rfl, congrArg (Absorbed.mk · []) initialHash_eq⟩

theorem input_ensures {ctx : Sha256} {h : Hashing} (represents : Represents ctx h) (message : List UInt8) :
    (ctx.input message).Ensures size (Represents · (h.next (.input message))) := by
  rw [input]
  cases h with
  | absorbing bytes =>
      obtain ⟨short, absorbing⟩ := represents
      rw [absorbing.computed, absorbing.corrupted, Bool.false_or, Bool.false_or]
      by_cases empty : message = []
      · rw [if_pos (by rw [empty]; rfl), empty]
        apply Traced.ensures_pure
        rw [Hashing.next, List.append_nil, if_pos short]
        exact ⟨short, absorbing⟩
      · rw [if_neg (by rw [beq_iff_eq, List.length_eq_zero_iff]; exact empty)]
        apply (inputLoop_ensures (show Fed bytes ctx by rw [Fed, if_pos short]; exact absorbing) message).imp
        intro after fed
        rw [Hashing.next]
        by_cases more : 8 * (bytes ++ message).length < 18446744073709551616
        · rw [Fed, if_pos more] at fed
          rw [if_pos more]
          exact ⟨more, fed⟩
        · rw [Fed, if_neg more] at fed
          rw [if_neg more]
          exact fed
  | computed m =>
      rw [represents.computed, Bool.true_or, Bool.true_or, if_pos rfl]
      exact Traced.ensures_pure represents
  | corrupted =>
      have flag : ctx.corrupted = true := represents
      rw [flag, Bool.or_true, Bool.true_or, if_pos rfl]
      exact Traced.ensures_pure flag

/-- The two tables cut a byte off and mark its end. -/
theorem marked_toNat (byte : Fin 256) (length : Fin 8) :
    ((UInt8.ofNat byte.val &&& masks.getD length.val 0) ||| markbit.getD length.val 0).toNat =
      2 ^ (8 - length.val) * (byte.val / 2 ^ (8 - length.val)) + 2 ^ (7 - length.val) := by
  revert byte length
  decide +kernel

theorem marked_bits (messageBits : UInt8) (length : Nat) (small : length < 8) :
    byteBits ((messageBits &&& masks.getD length 0) ||| markbit.getD length 0) =
      (byteBits messageBits).take length ++ [true] ++ List.replicate (7 - length) false := by
  have value := marked_toNat ⟨messageBits.toNat, messageBits.toNat_lt⟩ ⟨length, small⟩
  have mark : 2 ^ (7 - length) < 2 ^ (8 - length) := Nat.pow_lt_pow_right (by decide) (by omega)
  have split := bigEndianBits_fields length (8 - length) (messageBits.toNat / 2 ^ (8 - length)) (2 ^ (7 - length)) mark
  have front : (byteBits messageBits).take length = bigEndianBits length (messageBits.toNat / 2 ^ (8 - length)) := by
    have cut := bigEndianBits_add length (8 - length) messageBits.toNat
    rw [Nat.add_sub_cancel' (Nat.le_of_lt small)] at cut
    rw [byteBits, cut, List.take_left' (bigEndianBits_length _ _)]
  have ends := bigEndianBits_two_pow (7 - length)
  rw [show 7 - length + 1 = 8 - length by omega] at ends
  rw [Nat.add_sub_cancel' (Nat.le_of_lt small), ends] at split
  rw [UInt8.ofNat_toNat] at value
  rw [byteBits, value, split, front, List.append_assoc]

theorem finalBits_ensures {ctx : Sha256} {h : Hashing} (represents : Represents ctx h) (messageBits : UInt8)
    (length : UInt32) :
    (ctx.finalBits messageBits length).Ensures size (Represents · (h.next (.finalBits messageBits length))) := by
  rw [finalBits]
  by_cases none : length = 0
  · rw [if_pos none, none]
    apply Traced.ensures_pure
    cases h with
    | absorbing bytes => exact represents
    | computed m => exact represents
    | corrupted => exact represents
  · rw [if_neg none]
    cases h with
    | absorbing bytes =>
        obtain ⟨short, absorbing⟩ := represents
        have flag : (length == 0) = false := by rw [beq_eq_false_iff_ne]; exact none
        rw [Hashing.next, if_neg none]
        by_cases small : length < 8
        · have bound : length.toNat < 8 := UInt32.lt_iff_toNat_lt.mp small
          obtain ⟨low, high, counted, value⟩ := addLength_eq ctx length
          have within : ctx.lengthBits + length.toNat < 18446744073709551616 := by
            rw [absorbing.length]
            omega
          rw [decide_eq_false (Nat.not_le.mpr within)] at counted
          rw [Nat.mod_eq_of_lt within, absorbing.length] at value
          have cut : ((byteBits messageBits).take length.toNat).length = length.toNat := by
            rw [List.length_take, byteBits_length]
            omega
          have same :
              (if ctx.computed || 8 ≤ length || length == 0 then { ctx with corrupted := true } else ctx) = ctx := by
            rw [absorbing.computed, flag, decide_eq_false (UInt32.not_le.mpr small)]
            rfl
          simp only [same]
          rw [if_neg (by rw [absorbing.corrupted]; exact Bool.false_ne_true), if_pos small]
          apply Traced.Ensures.bind (Traced.ensures_touch bound)
          intro _ _
          apply Traced.Ensures.bind (Traced.ensures_touch bound)
          intro _ _
          apply finalize_computed absorbing
          · rw [cut]
            exact bound
          · rw [counted]
            rfl
          · rw [counted]
          · rw [counted]
          · rw [counted, cut]
            exact value
          · rw [cut]
            exact marked_bits messageBits length.toNat bound
        · have same : (if ctx.computed || 8 ≤ length || length == 0 then { ctx with corrupted := true } else ctx) =
              { ctx with corrupted := true } := by
            rw [decide_eq_true (UInt32.not_lt.mp small), Bool.or_true, Bool.true_or, if_pos rfl]
          simp only [same, ↓reduceIte, if_neg small]
          exact Traced.ensures_pure rfl
    | computed m =>
        rw [Hashing.next, if_neg none]
        simp only [represents.computed, Bool.true_or, ↓reduceIte]
        exact Traced.ensures_pure rfl
    | corrupted =>
        have flag : ctx.corrupted = true := represents
        have stays : (if ctx.computed || 8 ≤ length || length == 0 then { ctx with corrupted := true } else ctx).corrupted =
            true := by
          split
          · rfl
          · exact flag
        rw [if_pos stays]
        exact Traced.ensures_pure stays

theorem result_ensures {ctx : Sha256} {h : Hashing} (represents : Represents ctx h) :
    ctx.result.Ensures size fun after =>
      Represents after.1 (h.next .result) ∧ after.2 = h.message.map Sha2.digest := by
  rw [result]
  cases h with
  | absorbing bytes =>
      obtain ⟨short, absorbing⟩ := represents
      rw [absorbing.corrupted, absorbing.computed, if_neg Bool.false_ne_true, Bool.not_false, if_pos rfl]
      have ends := finalize_computed absorbing [] 0x80 (by decide) rfl rfl absorbing.corrupted absorbing.length rfl
      rw [List.append_nil] at ends
      apply ends.bind
      intro after computed
      exact Traced.ensures_pure ⟨computed, congrArg some computed.digest⟩
  | computed m =>
      rw [represents.corrupted, represents.computed, if_neg Bool.false_ne_true, Bool.not_true,
        if_neg Bool.false_ne_true]
      exact Traced.ensures_pure ⟨represents, congrArg some represents.digest⟩
  | corrupted =>
      have flag : ctx.corrupted = true := represents
      rw [if_pos flag]
      exact Traced.ensures_pure ⟨flag, rfl⟩

/-- One call keeps the object in step, and gives the digests it should. -/
theorem call_ensures {ctx : Sha256} {h : Hashing} (represents : Represents ctx h) (c : Call) :
    (ctx.call c).Ensures size fun after =>
      Represents after.1 (h.next c) ∧ ∀ rest, after.2 ++ (h.next c).digests rest = h.digests (c :: rest) := by
  cases c with
  | reset => exact Traced.ensures_pure ⟨by cases h <;> exact fresh_represents ctx, fun _ => rfl⟩
  | input message =>
      apply (input_ensures represents message).bind
      intro after next
      exact Traced.ensures_pure ⟨next, fun _ => rfl⟩
  | finalBits messageBits length =>
      apply (finalBits_ensures represents messageBits length).bind
      intro after next
      exact Traced.ensures_pure ⟨next, fun _ => rfl⟩
  | result =>
      apply (result_ensures represents).bind
      intro after ⟨next, digest⟩
      exact Traced.ensures_pure ⟨next, fun _ => by rw [digest]; rfl⟩

theorem calls_ensures {ctx : Sha256} {h : Hashing} (represents : Represents ctx h) (cs : List Call) :
    (ctx.calls cs).Ensures size fun after => after.2 = h.digests cs := by
  induction cs generalizing ctx h with
  | nil => exact Traced.ensures_pure rfl
  | cons c rest ih =>
      apply (call_ensures represents c).bind
      intro after ⟨next, digests⟩
      apply (ih next).bind
      intro last later
      apply Traced.ensures_pure
      rw [later, digests]

end Calls

section Messages

/-- The bits that a call gives. -/
def Call.bits : Call → List Bool
  | .input message => bytesBits message
  | .finalBits messageBits length => (byteBits messageBits).take length.toNat
  | _ => []

def Call.isResult : Call → Bool
  | .result => true
  | _ => false

/-- A message in pieces: bytes in any chunks, and then fewer than eight bits, or none. -/
def Pieces (cs : List Call) : Prop :=
  ∃ chunks : List (List UInt8), cs = chunks.map Call.input ∨
    ∃ messageBits length, length < 8 ∧ cs = chunks.map Call.input ++ [.finalBits messageBits length]

/-- The digest of a message, if its length fits the length field. -/
def resultOf (message : List Bool) : Option (List UInt8) :=
  if message.length < 18446744073709551616 then some (Sha2.digest message) else none

namespace Hashing

theorem digests_append (h : Hashing) (front back : List Call) :
    h.digests (front ++ back) = h.digests front ++ (front.foldl next h).digests back := by
  induction front generalizing h with
  | nil => rfl
  | cons c front ih =>
      cases c with
      | result => exact congrArg (_ :: ·) (ih (h.next .result))
      | _ => exact ih _

/-- An object that has been given bytes. -/
def given (bytes : List UInt8) : Hashing :=
  if 8 * bytes.length < 18446744073709551616 then .absorbing bytes else .corrupted

theorem given_input (bytes message : List UInt8) : (given bytes).next (.input message) = given (bytes ++ message) := by
  rw [given]
  split
  · rfl
  · rw [given, if_neg (by rw [List.length_append]; omega)]
    rfl

theorem given_inputs (bytes : List UInt8) (chunks : List (List UInt8)) :
    (chunks.map Call.input).foldl next (given bytes) = given (bytes ++ chunks.flatten) := by
  induction chunks generalizing bytes with
  | nil => rw [List.flatten_nil, List.append_nil]; rfl
  | cons message chunks ih => rw [List.map_cons, List.foldl_cons, given_input, ih, List.flatten_cons, List.append_assoc]

theorem given_message (bytes : List UInt8) : (given bytes).message.map Sha2.digest = resultOf (bytesBits bytes) := by
  rw [given, resultOf, bytesBits_length, Nat.mul_comm]
  split <;> rfl

theorem given_finalBits (bytes : List UInt8) (messageBits : UInt8) (length : UInt32) (few : length < 8) :
    ((given bytes).next (.finalBits messageBits length)).message.map Sha2.digest =
      resultOf (bytesBits bytes ++ (byteBits messageBits).take length.toNat) := by
  have bound : length.toNat < 8 := UInt32.lt_iff_toNat_lt.mp few
  by_cases none : length = 0
  · have same : (given bytes).next (.finalBits messageBits length) = given bytes := by
      rw [given]
      split
      · rw [next, if_pos none]
      · rfl
    rw [same, given_message, none]
    exact congrArg resultOf (List.append_nil _).symm
  · rw [given, resultOf, List.length_append, bytesBits_length, List.length_take, byteBits_length]
    split
    · rw [next, if_neg none, if_pos few, if_pos (by omega)]
      rfl
    · rw [if_neg (by omega)]
      rfl

theorem digests_inputs (h : Hashing) (chunks : List (List UInt8)) : h.digests (chunks.map Call.input) = [] := by
  induction chunks generalizing h with
  | nil => rfl
  | cons message chunks ih => exact ih _

theorem bits_inputs (chunks : List (List UInt8)) : (chunks.map Call.input).flatMap Call.bits =
    bytesBits chunks.flatten := by
  induction chunks with
  | nil => rfl
  | cons message chunks ih =>
      rw [List.map_cons, List.flatMap_cons, ih, List.flatten_cons, bytesBits_append]
      rfl

/-- The pieces of a message give its digest. -/
theorem message_pieces {pieces : List Call} (given : Pieces pieces) :
    digests (.absorbing []) pieces = [] ∧
      (pieces.foldl next (.absorbing [])).message.map Sha2.digest = resultOf (pieces.flatMap Call.bits) := by
  obtain ⟨chunks, rfl | ⟨messageBits, length, few, rfl⟩⟩ := given
  · have fed := given_inputs [] chunks
    rw [List.nil_append] at fed
    refine ⟨digests_inputs _ chunks, ?_⟩
    rw [bits_inputs, ← given_message, ← fed]
    rfl
  · have fed := given_inputs [] chunks
    rw [List.nil_append] at fed
    constructor
    · rw [digests_append, digests_inputs]
      rfl
    · rw [List.flatMap_append, bits_inputs, List.flatMap_singleton, Call.bits, ← given_finalBits _ _ _ few, ← fed,
        List.foldl_append]
      rfl

/-- Once a result has been asked for, more input does not count. -/
theorem digests_ended (h : Hashing) (more : List Call)
    (ended : ∀ c ∈ more, c = .result ∨ ∃ message, c = .input message) :
    (h.next .result).digests more = List.replicate (more.countP Call.isResult) (h.message.map Sha2.digest) := by
  have again : (h.next .result).next .result = h.next .result := by cases h <;> rfl
  have kept (message : List UInt8) : (h.next .result).next (.input message) = h.next .result := by cases h <;> rfl
  have same : (h.next .result).message = h.message := by cases h <;> rfl
  induction more with
  | nil => rfl
  | cons c more ih =>
      rw [List.forall_mem_cons] at ended
      rcases ended.1 with rfl | ⟨message, rfl⟩
      · rw [digests, again, ih ended.2, same, List.countP_cons_of_pos rfl]
        rfl
      · rw [digests, kept, ih ended.2, List.countP_cons_of_neg
        (show ¬(Call.input message).isResult = true from Bool.false_ne_true)]
        exact fun impossible => by cases impossible

end Hashing

/-- Whatever is called, in whatever order, no array is left. On an object that is new or has
been reset, the pieces of a message and a `result` give the digest of the message, and so
does every further `result` before the next `reset`, whatever has been input meanwhile. -/
theorem calls_digests (messageBlock : Block blockSize) :
    (∀ cs, ((new messageBlock).calls cs).InBounds size) ∧
      ∀ before pieces more, (before = [] ∨ ∃ earlier, before = earlier ++ [.reset]) → Pieces pieces →
        (∀ c ∈ more, c = .result ∨ ∃ message, c = .input message) →
        ((new messageBlock).calls (before ++ (pieces ++ .result :: more))).value.2 =
          ((new messageBlock).calls before).value.2 ++
            List.replicate (more.countP Call.isResult + 1) (resultOf (pieces.flatMap Call.bits)) := by
  have ensures (cs : List Call) : ((new messageBlock).calls cs).Ensures size
      fun after => after.2 = Hashing.digests (.absorbing []) cs := calls_ensures (fresh_represents (new messageBlock)) cs
  refine ⟨fun cs => (ensures cs).1, fun before pieces more begun given ended => ?_⟩
  have fresh : before.foldl Hashing.next (.absorbing []) = .absorbing [] := by
    rcases begun with rfl | ⟨earlier, rfl⟩
    · rfl
    · rw [List.foldl_append, List.foldl_cons, List.foldl_nil]
      cases earlier.foldl Hashing.next (.absorbing []) <;> rfl
  obtain ⟨silent, message⟩ := Hashing.message_pieces given
  rw [(ensures _).2, (ensures before).2, Hashing.digests_append, fresh, Hashing.digests_append, silent, List.nil_append,
    Hashing.digests, Hashing.digests_ended _ more ended, message, List.replicate_succ]

/-- An object that is corrupted, reset and given three bytes in two chunks and three bits;
asked twice, with an input between. -/
theorem calls_digests_pieces :
    (∀ cs, ((new fun _ => 0xAA).calls cs).InBounds size) ∧
      ((new fun _ => 0xAA).calls ([.finalBits 0 9, .result, .reset] ++
        ([.input [97, 98], .input [99], .finalBits 0xA0 3] ++ .result :: [.input [100], .result]))).value.2 =
        ((new fun _ => 0xAA).calls [.finalBits 0 9, .result, .reset]).value.2 ++
          List.replicate 2 (resultOf (bytesBits [97, 98, 99] ++ [true, false, true])) := by
  have all := calls_digests fun _ => 0xAA
  refine ⟨all.1, all.2 _ _ [.input [100], .result] (Or.inr ⟨[.finalBits 0 9, .result], rfl⟩)
    ⟨[[97, 98], [99]], Or.inr ⟨0xA0, 3, by decide, rfl⟩⟩ ?_⟩
  intro c member
  rcases List.mem_pair.mp member with rfl | rfl
  · exact Or.inr ⟨[100], rfl⟩
  · exact Or.inl rfl

end Messages

end GameServer.Sha256
