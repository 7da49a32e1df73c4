import GameCredits.Framework.Codec
import GameCredits.Framework.Ring

/-!
# The buffered reader of block files (streams.h)

`CBufferedFile`, whose buffer is a ring, on a file with the bytes `src`. Positions in a file stay far
below `2^64`, and are numbers; the `unsigned int`s of `Fill` and `read` are remainders. A function
returns `none` where it leaves the buffer or does not end.
-/

namespace GC

open Framework (Bytes overwrite)

structure CBufferedFile where
  /-- The bytes of the source file. -/
  src : Bytes
  nSrcPos : Nat
  nReadPos : Nat
  nReadLimit : Nat
  nRewind : Nat
  vchBuf : Bytes

namespace CBufferedFile

/-- The constructor. -/
def ofFile (src : Bytes) (nBufSize nRewindIn : Nat) : CBufferedFile where
  src := src
  nSrcPos := 0
  nReadPos := 0
  nReadLimit := 2 ^ 64 - 1
  nRewind := nRewindIn
  vchBuf := List.replicate nBufSize 0

/-- `readNow` of `Fill`. -/
def readNow (f : CBufferedFile) : Nat :=
  let pos := f.nSrcPos % f.vchBuf.length % 2 ^ 32
  let readNow := (f.vchBuf.length - pos) % 2 ^ 32
  let nAvail := (((f.vchBuf.length : Int) - (f.nSrcPos - f.nReadPos) - f.nRewind) % 2 ^ 32).toNat
  if nAvail < readNow then nAvail else readNow

/-- `Fill`. -/
def fill (f : CBufferedFile) : Except String Bool × CBufferedFile :=
  if f.readNow = 0 then (.ok false, f)
  else
    let read := (f.src.drop f.nSrcPos).take f.readNow
    if read.isEmpty then (.error "CBufferedFile::Fill: end of file", f)
    else
      (.ok true, { f with
        nSrcPos := f.nSrcPos + read.length
        vchBuf := overwrite f.vchBuf (f.nSrcPos % f.vchBuf.length % 2 ^ 32) read })

/-- `Fill` at the end of what has been read from the source. -/
def fillAtEnd (f : CBufferedFile) : Except String Bool × CBufferedFile :=
  if f.nReadPos = f.nSrcPos then f.fill else (.ok true, f)

/-- `nNow` of `read`, with `nSize` bytes to go. -/
def nNow (f : CBufferedFile) (nSize : Nat) : Nat :=
  let pos := f.nReadPos % f.vchBuf.length % 2 ^ 32
  let nNow := if f.vchBuf.length < nSize + pos then f.vchBuf.length - pos else nSize
  if f.nSrcPos < nNow + f.nReadPos then f.nSrcPos - f.nReadPos else nNow

/-- The loop of `read`, after the bytes `pch`. A round that reads nothing is repeated for ever. -/
def readLoop : (rounds nSize : Nat) → (pch : Bytes) → CBufferedFile →
    Option (Except String Bytes × CBufferedFile)
  | _, 0, pch, f => some (.ok pch, f)
  | 0, _ + 1, _, _ => none
  | rounds + 1, nSize, pch, f =>
    match f.fillAtEnd with
    | (.error e, f) => some (.error e, f)
    | (.ok _, f) =>
      if f.nSrcPos < f.nReadPos then none
      else
        let pos := f.nReadPos % f.vchBuf.length % 2 ^ 32
        readLoop rounds (nSize - f.nNow nSize) (pch ++ (f.vchBuf.drop pos).take (f.nNow nSize))
          { f with nReadPos := f.nReadPos + f.nNow nSize }

/-- `read`. -/
def read (nSize : Nat) (f : CBufferedFile) : Option (Except String Bytes × CBufferedFile) :=
  if f.nReadLimit < nSize + f.nReadPos then some (.error "Read attempted past buffer limit", f)
  else if f.vchBuf.length < nSize + f.nRewind then some (.error "Read larger than buffer size", f)
  else readLoop nSize nSize [] f

/-- `SetPos`. -/
def setPos (nPos : Nat) (f : CBufferedFile) : Bool × CBufferedFile :=
  if nPos + f.nRewind < f.nSrcPos then (false, { f with nReadPos := f.nSrcPos - f.nRewind })
  else if f.nSrcPos < nPos then (false, { f with nReadPos := f.nSrcPos })
  else (true, { f with nReadPos := nPos })

/-- `SetLimit`. -/
def setLimit (nPos : Nat) (f : CBufferedFile) : Bool × CBufferedFile :=
  if nPos < f.nReadPos then (false, f) else (true, { f with nReadLimit := nPos })

/-- The loop of `FindByte`. -/
def findByteLoop (ch : UInt8) : (rounds : Nat) → CBufferedFile →
    Option (Except String Unit × CBufferedFile)
  | 0, _ => none
  | rounds + 1, f =>
    match f.fillAtEnd with
    | (.error e, f) => some (.error e, f)
    | (.ok _, f) => do
      let byte ← f.vchBuf[f.nReadPos % f.vchBuf.length]?
      if byte = ch then some (.ok (), f)
      else findByteLoop ch rounds { f with nReadPos := f.nReadPos + 1 }

/-- `FindByte`; a round for each byte of the file is enough. -/
def findByte (ch : UInt8) (f : CBufferedFile) : Option (Except String Unit × CBufferedFile) :=
  findByteLoop ch (f.src.length + 1) f

end CBufferedFile

/-! ## Calls -/

inductive BufferedCall where
  | read (nSize : Nat)
  | findByte (ch : UInt8)
  | setLimit (nPos : Nat)
  | setPos (nPos : Nat)
  deriving DecidableEq, Repr

/-- What a call returns, or the exception. -/
inductive BufferedResult where
  | data (pch : Bytes)
  | found
  | flag (f : Bool)
  | failure (what : String)
  deriving DecidableEq, Repr

/-- A call on the reader: its result, and the reader after it. -/
def BufferedCall.run (f : CBufferedFile) : BufferedCall → Option (BufferedResult × CBufferedFile)
  | read nSize => (f.read nSize).map fun
    | (.ok pch, f) => (.data pch, f)
    | (.error what, f) => (.failure what, f)
  | findByte ch => (f.findByte ch).map fun
    | (.ok (), f) => (.found, f)
    | (.error what, f) => (.failure what, f)
  | setLimit nPos => some (.flag (f.setLimit nPos).1, (f.setLimit nPos).2)
  | setPos nPos => some (.flag (f.setPos nPos).1, (f.setPos nPos).2)

/-- The results of a sequence of calls, each with `GetPos()` after it. -/
def CBufferedFile.runCalls (f : CBufferedFile) : List BufferedCall → Option (List (BufferedResult × Nat))
  | [] => some []
  | call :: calls => do
    let (result, f) ← call.run f
    let results ← f.runCalls calls
    return (result, f.nReadPos) :: results

end GC
