import GameServer.Base.Access
import GameServer.Base.Sha2
import GameServer.Base64

set_option autoImplicit false

/- The hash object of sha256.h. Its block of bytes and the tables it looks up by a variable
index are arrays whose accesses are logged. -/
namespace GameServer.Sha256

open Base
open Base.Sha2 (Words)

def blockSize : Nat := 64

def shr (bits word : UInt32) : UInt32 := word >>> bits

def rotr (bits word : UInt32) : UInt32 := (word >>> bits) ||| (word <<< (32 - bits))

/-- `SHA256_SIGMA0` -/
def upperSigma0 (word : UInt32) : UInt32 := rotr 2 word ^^^ rotr 13 word ^^^ rotr 22 word

/-- `SHA256_SIGMA1` -/
def upperSigma1 (word : UInt32) : UInt32 := rotr 6 word ^^^ rotr 11 word ^^^ rotr 25 word

/-- `SHA256_sigma0` -/
def lowerSigma0 (word : UInt32) : UInt32 := rotr 7 word ^^^ rotr 18 word ^^^ shr 3 word

/-- `SHA256_sigma1` -/
def lowerSigma1 (word : UInt32) : UInt32 := rotr 17 word ^^^ rotr 19 word ^^^ shr 10 word

def ch (x y z : UInt32) : UInt32 := (x &&& (y ^^^ z)) ^^^ z

def maj (x y z : UInt32) : UInt32 := (x &&& (y ||| z)) ||| (y &&& z)

/-- `K` -/
def k : List UInt32 :=
  [0x428a2f98, 0x71374491, 0xb5c0fbcf, 0xe9b5dba5, 0x3956c25b, 0x59f111f1, 0x923f82a4, 0xab1c5ed5,
    0xd807aa98, 0x12835b01, 0x243185be, 0x550c7dc3, 0x72be5d74, 0x80deb1fe, 0x9bdc06a7, 0xc19bf174,
    0xe49b69c1, 0xefbe4786, 0x0fc19dc6, 0x240ca1cc, 0x2de92c6f, 0x4a7484aa, 0x5cb0a9dc, 0x76f988da,
    0x983e5152, 0xa831c66d, 0xb00327c8, 0xbf597fc7, 0xc6e00bf3, 0xd5a79147, 0x06ca6351, 0x14292967,
    0x27b70a85, 0x2e1b2138, 0x4d2c6dfc, 0x53380d13, 0x650a7354, 0x766a0abb, 0x81c2c92e, 0x92722c85,
    0xa2bfe8a1, 0xa81a664b, 0xc24b8b70, 0xc76c51a3, 0xd192e819, 0xd6990624, 0xf40e3585, 0x106aa070,
    0x19a4c116, 0x1e376c08, 0x2748774c, 0x34b0bcb5, 0x391c0cb3, 0x4ed8aa4a, 0x5b9cca4f, 0x682e6ff3,
    0x748f82ee, 0x78a5636f, 0x84c87814, 0x8cc70208, 0x90befffa, 0xa4506ceb, 0xbef9a3f7, 0xc67178f2]

/-- The values `intermediate_hash_` starts with. -/
def initialHash : Words :=
  ⟨0x6A09E667, 0xBB67AE85, 0x3C6EF372, 0xA54FF53A, 0x510E527F, 0x9B05688C, 0x1F83D9AB, 0x5BE0CD19⟩

/-- One of the first sixteen words of `W`. -/
def blockWord (block : Block blockSize) (t : Nat) : UInt32 :=
  ((block.load (4 * t)).toUInt32 <<< 24) ||| ((block.load (4 * t + 1)).toUInt32 <<< 16) |||
    ((block.load (4 * t + 2)).toUInt32 <<< 8) ||| (block.load (4 * t + 3)).toUInt32

/-- The words of `W` behind the first sixteen, each out of four words before it. -/
def extend (w : List UInt32) : List UInt32 :=
  let t := w.length
  w ++ [lowerSigma1 (w.getD (t - 2) 0) + w.getD (t - 7) 0 + lowerSigma0 (w.getD (t - 15) 0) + w.getD (t - 16) 0]

def w (block : Block blockSize) : List UInt32 := Nat.repeat extend 48 ((List.range 16).map (blockWord block))

/-- One of the 64 rounds on `A` to `H`. -/
def round (k w : UInt32) (r : Words) : Words :=
  let temp1 := r.h + upperSigma1 r.e + ch r.e r.f r.g + k + w
  let temp2 := upperSigma0 r.a + maj r.a r.b r.c
  ⟨temp1 + temp2, r.a, r.b, r.c, r.d + temp1, r.e, r.f, r.g⟩

/-- What `process_message_block` does to `intermediate_hash_`. -/
def compress (hash : Words) (block : Block blockSize) : Words :=
  hash.add ((List.zip k (w block)).foldl (fun r kw => round kw.1 kw.2 r) hash)

/-- The arrays that are indexed by a variable. -/
inductive Place where
  | messageBlock
  | masks
  | markbit
  deriving DecidableEq

def size : Place → Nat
  | .messageBlock => blockSize
  | .masks => 8
  | .markbit => 8

end GameServer.Sha256

namespace GameServer

open Base
open Base.Sha2 (Words)

structure Sha256 where
  intermediateHash : Words
  lengthLow : UInt32
  lengthHigh : UInt32
  messageBlockIndex : Nat
  messageBlock : Block Sha256.blockSize
  computed : Bool
  corrupted : Bool

namespace Sha256

/-- The constructor; it leaves the block as it finds it. -/
def new (messageBlock : Block blockSize) : Sha256 := ⟨initialHash, 0, 0, 0, messageBlock, false, false⟩

def reset (ctx : Sha256) : Sha256 := ⟨initialHash, 0, 0, 0, ctx.messageBlock, false, false⟩

def processMessageBlock (ctx : Sha256) : Traced Place Sha256 := do
  Traced.touch .messageBlock 0 blockSize
  pure { ctx with intermediateHash := compress ctx.intermediateHash ctx.messageBlock, messageBlockIndex := 0 }

/-- `message_block_[message_block_index_++] = byte` -/
def store (ctx : Sha256) (byte : UInt8) : Traced Place Sha256 := do
  let block ← Traced.write .messageBlock ctx.messageBlock ctx.messageBlockIndex [byte]
  pure { ctx with messageBlock := block, messageBlockIndex := ctx.messageBlockIndex + 1 }

/-- `SHA256_ADD_LENGTH`; the high word counts only where the low one overflows. -/
def addLength (ctx : Sha256) (length : UInt32) : Sha256 :=
  let temp := ctx.lengthLow
  let low := temp + length
  if low < temp then
    { ctx with lengthLow := low, lengthHigh := ctx.lengthHigh + 1, corrupted := ctx.lengthHigh + 1 == 0 }
  else { ctx with lengthLow := low, corrupted := false }

/-- One pass of the loop of `input`. -/
def inputByte (ctx : Sha256) (byte : UInt8) : Traced Place Sha256 := do
  let ctx ← ctx.store (byte &&& 0xFF)
  let ctx := ctx.addLength 8
  if !ctx.corrupted && ctx.messageBlockIndex == blockSize then ctx.processMessageBlock else pure ctx

def inputLoop (ctx : Sha256) : List UInt8 → Traced Place Sha256
  | [] => pure ctx
  | byte :: bytes =>
      if ctx.corrupted then pure ctx
      else do
        let ctx ← ctx.inputByte byte
        inputLoop ctx bytes

/-- `input`, given the bytes of the message array. -/
def input (ctx : Sha256) (message : List UInt8) : Traced Place Sha256 :=
  if ctx.computed || ctx.corrupted || message.length == 0 then pure ctx else ctx.inputLoop message

/-- `while (message_block_index_ < limit) message_block_[message_block_index_++] = 0`, for as
many times as are needed at most. -/
def zeroTo (limit : Nat) (ctx : Sha256) : (count : Nat) → Traced Place Sha256
  | 0 => pure ctx
  | count + 1 =>
      if ctx.messageBlockIndex < limit then do
        let ctx ← ctx.store 0
        zeroTo limit ctx count
      else pure ctx

def wordBytes (word : UInt32) : List UInt8 :=
  [(word >>> 24).toUInt8, (word >>> 16).toUInt8, (word >>> 8).toUInt8, word.toUInt8]

/-- The end of `pad_message`: zeros up to the last eight bytes of the block, and the length there. -/
def lastBlock (ctx : Sha256) : Traced Place Sha256 := do
  let ctx ← zeroTo (blockSize - 8) ctx (blockSize - 8 - ctx.messageBlockIndex)
  let block ← Traced.write .messageBlock ctx.messageBlock 56 (wordBytes ctx.lengthHigh ++ wordBytes ctx.lengthLow)
  processMessageBlock { ctx with messageBlock := block }

def padMessage (ctx : Sha256) (padByte : UInt8) : Traced Place Sha256 :=
  if blockSize - 8 ≤ ctx.messageBlockIndex then do
    let ctx ← ctx.store padByte
    let ctx ← zeroTo blockSize ctx (blockSize - ctx.messageBlockIndex)
    let ctx ← ctx.processMessageBlock
    ctx.lastBlock
  else do
    let ctx ← ctx.store padByte
    ctx.lastBlock

def finalize (ctx : Sha256) (padByte : UInt8) : Traced Place Sha256 := do
  let ctx ← ctx.padMessage padByte
  let block ← Traced.write .messageBlock ctx.messageBlock 0 (List.replicate blockSize 0)
  pure { ctx with messageBlock := block, lengthLow := 0, lengthHigh := 0, computed := true }

def masks : List UInt8 := [0x00, 0x80, 0xC0, 0xE0, 0xF0, 0xF8, 0xFC, 0xFE]

def markbit : List UInt8 := [0x80, 0x40, 0x20, 0x10, 0x08, 0x04, 0x02, 0x01]

def finalBits (ctx : Sha256) (messageBits : UInt8) (length : UInt32) : Traced Place Sha256 :=
  if length = 0 then pure ctx
  else
    let ctx := if ctx.computed || 8 ≤ length || length == 0 then { ctx with corrupted := true } else ctx
    if ctx.corrupted then pure ctx
    else do
      let ctx := ctx.addLength length
      Traced.touch .masks length.toNat 1
      Traced.touch .markbit length.toNat 1
      ctx.finalize ((messageBits &&& masks.getD length.toNat 0) ||| markbit.getD length.toNat 0)

/-- `result`, with what it writes to the digest; nothing where the object is corrupted. -/
def result (ctx : Sha256) : Traced Place (Sha256 × Option (List UInt8)) :=
  if ctx.corrupted then pure (ctx, none)
  else do
    let ctx ← if !ctx.computed then ctx.finalize 0x80 else pure ctx
    pure (ctx, some (ctx.intermediateHash.toList.flatMap wordBytes))

inductive Call where
  | reset
  | input (message : List UInt8)
  | finalBits (messageBits : UInt8) (length : UInt32)
  | result

/-- A call, with the digest of each call of `result`. -/
def call (ctx : Sha256) : Call → Traced Place (Sha256 × List (Option (List UInt8)))
  | .reset => pure (ctx.reset, [])
  | .input message => do
      let ctx ← ctx.input message
      pure (ctx, [])
  | .finalBits messageBits length => do
      let ctx ← ctx.finalBits messageBits length
      pure (ctx, [])
  | .result => do
      let (ctx, digest) ← ctx.result
      pure (ctx, [digest])

def calls (ctx : Sha256) : List Call → Traced Place (Sha256 × List (Option (List UInt8)))
  | [] => pure (ctx, [])
  | c :: rest => do
      let (ctx, digests) ← ctx.call c
      let (ctx, later) ← ctx.calls rest
      pure (ctx, digests ++ later)

/-- `sha256::hash`; the size of the string is passed as an `unsigned int`. -/
def hash (messageBlock : Block blockSize) (s : List UInt8) : Traced Place (Option (List UInt8)) := do
  let ctx ← (new messageBlock).input (s.take (s.length % 4294967296))
  let (_, digest) ← ctx.result
  pure digest

/-- `sha256::hash_base64` -/
def hashBase64 (messageBlock : Block blockSize) (s : List UInt8) : Traced Place (Option (List UInt8)) := do
  let digest ← hash messageBlock s
  pure (digest.map fun digest => Base64.encodeFromArray digest 32)

end Sha256

end GameServer
