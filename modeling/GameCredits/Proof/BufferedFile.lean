import GameCredits.Model.BufferedFile
import Mathlib.Tactic.SplitIfs

/-!
# The buffered reader

`CBufferedFile` against a reader that has the whole file (`FilePos`). What the buffer has is a window of
the file (`CBufferedFile.Ok`), so that what is read is right (`readLoop_spec`, `findByteLoop_spec`). A
rewind of a length that is promised is refused when `Fill` has read too far ahead: a sequence of calls
has the results of the plain reader just when that does not happen (`runCalls_faithful_iff`).
-/

namespace GC

open Framework

/-! ## The plain reader -/

/-- A position in a file, and a limit for what is read. -/
structure FilePos where
  nPos : Nat
  nLimit : Nat

def endOfFile : String := "CBufferedFile::Fill: end of file"

/-- What a call does on a file that is all in reach. -/
def FilePos.run (src : Bytes) (p : FilePos) : BufferedCall → BufferedResult × FilePos
  | .read nSize =>
    if p.nLimit < nSize + p.nPos then (.failure "Read attempted past buffer limit", p)
    else if p.nPos + nSize ≤ src.length then
      (.data ((src.drop p.nPos).take nSize), { p with nPos := p.nPos + nSize })
    else (.failure endOfFile, { p with nPos := src.length })
  | .findByte ch =>
    match (src.drop p.nPos).findIdx? (· == ch) with
    | some k => (.found, { p with nPos := p.nPos + k })
    | none => (.failure endOfFile, { p with nPos := src.length })
  | .setLimit nPos => if nPos < p.nPos then (.flag false, p) else (.flag true, { p with nLimit := nPos })
  | .setPos nPos => (.flag true, { p with nPos := nPos })

/-- The results of a sequence of calls, each with the position after it. -/
def FilePos.runCalls (src : Bytes) (p : FilePos) : List BufferedCall → List (BufferedResult × Nat)
  | [] => []
  | call :: calls => ((p.run src call).1, (p.run src call).2.nPos) :: (p.run src call).2.runCalls src calls

/-! ## The calls that are looked at -/

/-- A read that fits into the buffer, and a rewind of the length that is promised. -/
def BufferedCall.allowed (f : CBufferedFile) : BufferedCall → Bool
  | read nSize => decide (nSize + f.nRewind ≤ f.vchBuf.length)
  | setPos nPos => decide (nPos ≤ f.nReadPos ∧ f.nReadPos ≤ nPos + f.nRewind)
  | _ => true

/-- A rewind is to a position that is not too far before what `Fill` has read. -/
def BufferedCall.inReach (f : CBufferedFile) : BufferedCall → Bool
  | setPos nPos => decide (f.nSrcPos ≤ nPos + f.nRewind)
  | _ => true

/-- `p` is true of every call, and the reader before it. -/
def CBufferedFile.along (p : CBufferedFile → BufferedCall → Bool) (f : CBufferedFile) :
    List BufferedCall → Bool
  | [] => true
  | call :: calls => p f call && match call.run f with
    | some (_, f) => f.along p calls
    | none => true

/-! ## The window -/

/-- The reader on the file `src`, with the sizes of its buffer. -/
structure CBufferedFile.Ok (src : Bytes) (B R : Nat) (f : CBufferedFile) : Prop where
  src_eq : f.src = src
  size : f.vchBuf.length = B
  rewind : f.nRewind = R
  window : Window src f.nSrcPos f.vchBuf
  le : f.nReadPos ≤ f.nSrcPos
  near : f.nSrcPos ≤ f.nReadPos + B

/-- Sizes with which `Fill` computes without loss. -/
structure Sizes (B R : Nat) : Prop where
  rewind_pos : 0 < R
  rewind_lt : R < B
  size_lt : B < 2 ^ 32

section

variable {src : Bytes} {B R : Nat} {f : CBufferedFile}

theorem CBufferedFile.ok_ofFile (src : Bytes) (B R : Nat) : (ofFile src B R).Ok src B R where
  src_eq := rfl
  size := List.length_replicate
  rewind := rfl
  window := Window.start _ _
  le := Nat.zero_le _
  near := Nat.zero_le _

/-- The reader after `n` more bytes have been passed. -/
theorem CBufferedFile.Ok.advance (h : f.Ok src B R) {n : Nat} (hn : f.nReadPos + n ≤ f.nSrcPos) :
    CBufferedFile.Ok src B R { f with nReadPos := f.nReadPos + n } :=
  ⟨h.src_eq, h.size, h.rewind, h.window, hn, by
    have := h.near
    show f.nSrcPos ≤ f.nReadPos + n + B
    omega⟩

variable (hs : Sizes B R)

include hs

theorem CBufferedFile.Ok.pos_eq (h : f.Ok src B R) (n : Nat) :
    n % f.vchBuf.length % 2 ^ 32 = n % B := by
  have hlt := Nat.mod_lt n (show 0 < B from Nat.zero_lt_of_lt hs.rewind_lt)
  rw [h.size, Nat.mod_eq_of_lt (hlt.trans hs.size_lt)]

/-- `Fill` is called at the end of what has been read: there is space for some more. -/
theorem CBufferedFile.Ok.readNow_eq (h : f.Ok src B R) (hend : f.nReadPos = f.nSrcPos) :
    f.readNow = min (B - R) (B - f.nSrcPos % B) := by
  have hlt := Nat.mod_lt f.nSrcPos (show 0 < B from Nat.zero_lt_of_lt hs.rewind_lt)
  have hB := hs.size_lt
  have hR := hs.rewind_lt
  have hR0 := hs.rewind_pos
  have havail : (((B : Int) - (f.nSrcPos - f.nSrcPos) - R) % 2 ^ 32).toNat = B - R := by
    omega
  unfold readNow
  simp only [h.size, h.rewind, hend, havail]
  split_ifs <;> omega

/-- `Fill` at the end: the file ends there, or some more of it has been read. -/
theorem CBufferedFile.Ok.fill (h : f.Ok src B R) (hend : f.nReadPos = f.nSrcPos) :
    (f.nReadPos = src.length ∧ f.fill = (.error endOfFile, f)) ∨
      ∃ f', f.fill = (.ok true, f') ∧ f'.Ok src B R ∧ f'.nReadPos = f.nReadPos ∧
        f'.nReadLimit = f.nReadLimit ∧ f'.nReadPos < f'.nSrcPos := by
  have hlt := Nat.mod_lt f.nSrcPos (show 0 < B from Nat.zero_lt_of_lt hs.rewind_lt)
  have hR := hs.rewind_lt
  have hnow := h.readNow_eq hs hend
  have hle := h.window.le
  have hlen : ((f.src.drop f.nSrcPos).take f.readNow).length =
      min f.readNow (src.length - f.nSrcPos) := by
    rw [List.length_take, List.length_drop, h.src_eq]
  unfold CBufferedFile.fill
  rw [if_neg (show ¬ f.readNow = 0 by omega), h.pos_eq hs]
  simp only
  generalize hread : (f.src.drop f.nSrcPos).take f.readNow = read at hlen
  cases hempty : read.isEmpty with
  | true =>
    rw [List.isEmpty_iff.mp hempty, List.length_nil] at hlen
    exact .inl ⟨by omega, rfl⟩
  | false =>
    have hpos : 0 < read.length := List.length_pos_of_ne_nil fun hnil => by simp [hnil] at hempty
    have hchunk : (src.drop f.nSrcPos).take read.length = read := by
      rw [← hread, h.src_eq, List.take_eq_take_iff, List.length_take]
      omega
    have hwindow := h.window.write hchunk (by rw [h.size]; omega)
    have hsize : (overwrite f.vchBuf (f.nSrcPos % B) read).length = B := by
      rw [length_overwrite (by rw [h.size]; omega), h.size]
    refine .inr ⟨_, rfl, ⟨h.src_eq, hsize, h.rewind, ?_, ?_, ?_⟩, rfl, rfl, ?_⟩
    · rwa [h.size] at hwindow
    · show f.nReadPos ≤ f.nSrcPos + read.length
      omega
    · show f.nSrcPos + read.length ≤ f.nReadPos + B
      omega
    · show f.nReadPos < f.nSrcPos + read.length
      omega

/-- Before a byte is read the file ends, or the byte is in the window. -/
theorem CBufferedFile.Ok.fillAtEnd (h : f.Ok src B R) :
    (f.nReadPos = src.length ∧ f.fillAtEnd = (.error endOfFile, f)) ∨
      ∃ f', f.fillAtEnd = (.ok true, f') ∧ f'.Ok src B R ∧ f'.nReadPos = f.nReadPos ∧
        f'.nReadLimit = f.nReadLimit ∧ f'.nReadPos < f'.nSrcPos := by
  unfold CBufferedFile.fillAtEnd
  split_ifs with hend
  · exact h.fill hs hend
  · have hle := h.le
    exact .inr ⟨f, rfl, h, rfl, rfl, by omega⟩

/-! ## Reading -/

omit hs in
theorem CBufferedFile.readLoop_succ (rounds nSize : Nat) (pch : Bytes) :
    readLoop (rounds + 1) (nSize + 1) pch f =
      match f.fillAtEnd with
      | (.error e, f) => some (.error e, f)
      | (.ok _, f) =>
        if f.nSrcPos < f.nReadPos then none
        else
          readLoop rounds (nSize + 1 - f.nNow (nSize + 1))
            (pch ++ (f.vchBuf.drop (f.nReadPos % f.vchBuf.length % 2 ^ 32)).take (f.nNow (nSize + 1)))
            { f with nReadPos := f.nReadPos + f.nNow (nSize + 1) } := rfl

/-- The bytes of a round of `read`. -/
theorem CBufferedFile.Ok.read_round (h : f.Ok src B R) (hmore : f.nReadPos < f.nSrcPos) {nSize : Nat}
    (hsize : 0 < nSize) :
    0 < f.nNow nSize ∧ f.nNow nSize ≤ nSize ∧ f.nReadPos + f.nNow nSize ≤ f.nSrcPos ∧
      (f.vchBuf.drop (f.nReadPos % f.vchBuf.length % 2 ^ 32)).take (f.nNow nSize) =
        (src.drop f.nReadPos).take (f.nNow nSize) := by
  have hlt := Nat.mod_lt f.nReadPos (show 0 < B from Nat.zero_lt_of_lt hs.rewind_lt)
  have hnow : f.nNow nSize = min (min nSize (B - f.nReadPos % B)) (f.nSrcPos - f.nReadPos) := by
    have hpos := h.pos_eq hs f.nReadPos
    rw [h.size] at hpos
    unfold nNow
    simp only [h.size, hpos]
    split_ifs <;> omega
  have hread := h.window.read (k := f.nNow nSize) (by rw [h.size]; exact h.near)
    (by rw [h.size]; omega) (by omega)
  rw [h.pos_eq hs]
  rw [h.size] at hread
  exact ⟨by omega, by omega, by omega, hread⟩

/-- The loop of `read` reads the next bytes of the file, or all that is left of it. -/
theorem CBufferedFile.Ok.readLoop (rounds nSize : Nat) (pch : Bytes) (h : f.Ok src B R)
    (hrounds : nSize ≤ rounds) :
    ∃ f', f'.Ok src B R ∧ f'.nReadLimit = f.nReadLimit ∧
      if f.nReadPos + nSize ≤ src.length then
        readLoop rounds nSize pch f = some (.ok (pch ++ (src.drop f.nReadPos).take nSize), f') ∧
          f'.nReadPos = f.nReadPos + nSize
      else readLoop rounds nSize pch f = some (.error endOfFile, f') ∧ f'.nReadPos = src.length := by
  induction rounds generalizing f nSize pch with
  | zero =>
    obtain rfl := Nat.le_zero.mp hrounds
    have hle := h.le.trans h.window.le
    exact ⟨f, h, rfl, by simp [CBufferedFile.readLoop, hle]⟩
  | succ rounds ih =>
    cases nSize with
    | zero =>
      have hle := h.le.trans h.window.le
      exact ⟨f, h, rfl, by simp [CBufferedFile.readLoop, hle]⟩
    | succ nSize =>
      rcases h.fillAtEnd hs with ⟨hend, hfill⟩ | ⟨f₁, hfill, h₁, hpos, hlimit, hmore⟩
      · refine ⟨f, h, rfl, ?_⟩
        rw [if_neg (by omega), CBufferedFile.readLoop_succ, hfill]
        exact ⟨rfl, hend⟩
      · obtain ⟨hnow, hnowle, hnowsrc, hbytes⟩ := h₁.read_round hs hmore
          (show 0 < nSize + 1 by omega)
        obtain ⟨f', h', hlimit', hresult⟩ := ih (nSize + 1 - f₁.nNow (nSize + 1))
          (pch ++ (src.drop f₁.nReadPos).take (f₁.nNow (nSize + 1))) (h₁.advance hnowsrc) (by omega)
        refine ⟨f', h', hlimit'.trans hlimit, ?_⟩
        rw [CBufferedFile.readLoop_succ, hfill]
        simp only [hbytes, if_neg (show ¬ f₁.nSrcPos < f₁.nReadPos by omega)]
        rw [hpos] at hresult ⊢
        have hiff : f.nReadPos + f₁.nNow (nSize + 1) + (nSize + 1 - f₁.nNow (nSize + 1)) ≤ src.length ↔
            f.nReadPos + (nSize + 1) ≤ src.length := by omega
        have htake : (src.drop f.nReadPos).take (f₁.nNow (nSize + 1)) ++
            (src.drop (f.nReadPos + f₁.nNow (nSize + 1))).take (nSize + 1 - f₁.nNow (nSize + 1)) =
            (src.drop f.nReadPos).take (nSize + 1) := by
          rw [← List.drop_drop, ← List.take_add]
          congr 1
          omega
        simp only [hiff, List.append_assoc, htake] at hresult
        split_ifs at hresult ⊢ with hfits
        · exact ⟨hresult.1, by omega⟩
        · exact hresult

/-- The loop of `FindByte` stops at the first match, or at the end of the file. -/
theorem CBufferedFile.Ok.findByteLoop (ch : UInt8) (rounds : Nat) (h : f.Ok src B R)
    (hrounds : src.length + 1 ≤ f.nReadPos + rounds) :
    ∃ f', f'.Ok src B R ∧ f'.nReadLimit = f.nReadLimit ∧
      match (src.drop f.nReadPos).findIdx? (· == ch) with
      | some k => findByteLoop ch rounds f = some (.ok (), f') ∧ f'.nReadPos = f.nReadPos + k
      | none => findByteLoop ch rounds f = some (.error endOfFile, f') ∧
          f'.nReadPos = src.length := by
  have hle := h.le.trans h.window.le
  induction rounds generalizing f with
  | zero => omega
  | succ rounds ih =>
    rcases h.fillAtEnd hs with ⟨hend, hfill⟩ | ⟨f₁, hfill, h₁, hpos, hlimit, hmore⟩
    · refine ⟨f, h, rfl, ?_⟩
      rw [hend, List.drop_length, List.findIdx?_nil, CBufferedFile.findByteLoop, hfill]
      exact ⟨rfl, rfl⟩
    · have hwindow := h₁.window.le
      have hlt : f.nReadPos < src.length := by omega
      have hbyte : f₁.vchBuf[f₁.nReadPos % f₁.vchBuf.length]? = some src[f.nReadPos] := by
        rw [h₁.window.get f₁.nReadPos hmore (by rw [h₁.size]; exact h₁.near), hpos,
          List.getElem?_eq_getElem hlt]
      rw [List.drop_eq_getElem_cons hlt, List.findIdx?_cons, CBufferedFile.findByteLoop, hfill]
      simp only [hbyte, Option.bind_eq_bind, Option.bind_some]
      by_cases hmatch : src[f.nReadPos] = ch
      · refine ⟨f₁, h₁, hlimit, ?_⟩
        simp [hmatch, hpos]
      · obtain ⟨f', h', hlimit', hresult⟩ := ih (h₁.advance (n := 1) hmore)
          (by show src.length + 1 ≤ f₁.nReadPos + 1 + rounds; omega)
          (by show f₁.nReadPos + 1 ≤ src.length; omega)
        refine ⟨f', h', hlimit'.trans hlimit, ?_⟩
        rw [hpos] at hresult ⊢
        simp only [beq_eq_false_iff_ne.mpr hmatch, if_neg hmatch, Bool.false_eq_true, if_false]
        cases hfound : (src.drop (f.nReadPos + 1)).findIdx? (· == ch) with
        | none =>
          rw [hfound] at hresult
          exact hresult
        | some k =>
          rw [hfound] at hresult
          have hpos' : f'.nReadPos = f.nReadPos + 1 + k := hresult.2
          refine ⟨hresult.1, ?_⟩
          show f'.nReadPos = f.nReadPos + (k + 1)
          omega

/-! ## Calls -/

omit hs in
/-- What a caller knows of the reader. -/
def CBufferedFile.filePos (f : CBufferedFile) : FilePos := ⟨f.nReadPos, f.nReadLimit⟩

/-- The reader after a call: it is as the plain reader is, unless a rewind is refused. -/
structure Follows (src : Bytes) (B R : Nat) (f : CBufferedFile) (call : BufferedCall)
    (result : BufferedResult) (f' : CBufferedFile) : Prop where
  run : call.run f = some (result, f')
  ok : f'.Ok src B R
  same : call.inReach f = true → f.filePos.run src call = (result, f'.filePos)
  refused : call.inReach f = false → (f.filePos.run src call).1 ≠ result

theorem CBufferedFile.Ok.read (h : f.Ok src B R) {nSize : Nat}
    (hallowed : BufferedCall.allowed f (.read nSize) = true) :
    ∃ result f', Follows src B R f (.read nSize) result f' := by
  have hfits : nSize + f.nRewind ≤ f.vchBuf.length := of_decide_eq_true hallowed
  by_cases hlimit : f.nReadLimit < nSize + f.nReadPos
  · refine ⟨.failure "Read attempted past buffer limit", f, ?_, h, fun _ => if_pos hlimit, nofun⟩
    rw [BufferedCall.run, CBufferedFile.read, if_pos hlimit]
    rfl
  · have hread : f.read nSize = CBufferedFile.readLoop nSize nSize [] f := by
      rw [CBufferedFile.read, if_neg hlimit, if_neg (not_lt.mpr hfits)]
    obtain ⟨f', h', hlimit', hresult⟩ := h.readLoop hs nSize nSize [] (le_refl nSize)
    have hplain : f.filePos.run src (.read nSize) =
        if f.nReadPos + nSize ≤ src.length then
          (.data ((src.drop f.nReadPos).take nSize), ⟨f.nReadPos + nSize, f.nReadLimit⟩)
        else (.failure endOfFile, ⟨src.length, f.nReadLimit⟩) := if_neg hlimit
    split_ifs at hresult hplain with hmore
    · refine ⟨.data ((src.drop f.nReadPos).take nSize), f', ?_, h', fun _ => ?_, nofun⟩
      · rw [BufferedCall.run, hread, hresult.1]
        rfl
      · rw [hplain, CBufferedFile.filePos, hresult.2, hlimit']
    · refine ⟨.failure endOfFile, f', ?_, h', fun _ => ?_, nofun⟩
      · rw [BufferedCall.run, hread, hresult.1]
        rfl
      · rw [hplain, CBufferedFile.filePos, hresult.2, hlimit']

theorem CBufferedFile.Ok.findByte (h : f.Ok src B R) (ch : UInt8) :
    ∃ result f', Follows src B R f (.findByte ch) result f' := by
  obtain ⟨f', h', hlimit', hresult⟩ := h.findByteLoop hs ch (f.src.length + 1) (by
    rw [h.src_eq]
    omega)
  have hplain : f.filePos.run src (.findByte ch) =
      match (src.drop f.nReadPos).findIdx? (· == ch) with
      | some k => (.found, ⟨f.nReadPos + k, f.nReadLimit⟩)
      | none => (.failure endOfFile, ⟨src.length, f.nReadLimit⟩) := rfl
  cases hfound : (src.drop f.nReadPos).findIdx? (· == ch) with
  | none =>
    rw [hfound] at hresult hplain
    refine ⟨.failure endOfFile, f', ?_, h', fun _ => ?_, nofun⟩
    · rw [BufferedCall.run, CBufferedFile.findByte, hresult.1]
      rfl
    · rw [hplain, CBufferedFile.filePos, hresult.2, hlimit']
  | some k =>
    rw [hfound] at hresult hplain
    refine ⟨.found, f', ?_, h', fun _ => ?_, nofun⟩
    · rw [BufferedCall.run, CBufferedFile.findByte, hresult.1]
      rfl
    · rw [hplain, CBufferedFile.filePos, hresult.2, hlimit']

omit hs in
theorem CBufferedFile.Ok.setLimit (h : f.Ok src B R) (nPos : Nat) :
    ∃ result f', Follows src B R f (.setLimit nPos) result f' := by
  refine ⟨.flag (f.setLimit nPos).1, (f.setLimit nPos).2, rfl, ?_, fun _ => ?_, nofun⟩
  · unfold CBufferedFile.setLimit
    split_ifs
    · exact h
    · exact ⟨h.src_eq, h.size, h.rewind, h.window, h.le, h.near⟩
  · rw [FilePos.run, CBufferedFile.setLimit]
    show (if nPos < f.nReadPos then _ else _) = _
    split_ifs <;> rfl

theorem CBufferedFile.Ok.setPos (h : f.Ok src B R) {nPos : Nat}
    (hallowed : BufferedCall.allowed f (.setPos nPos) = true) :
    ∃ result f', Follows src B R f (.setPos nPos) result f' := by
  obtain ⟨hback, hnear⟩ : nPos ≤ f.nReadPos ∧ f.nReadPos ≤ nPos + f.nRewind :=
    of_decide_eq_true hallowed
  have hR := hs.rewind_lt
  have hle := h.le
  have hrewind := h.rewind
  by_cases hreach : nPos + f.nRewind < f.nSrcPos
  · have hset : f.setPos nPos = (false, { f with nReadPos := f.nSrcPos - f.nRewind }) := if_pos hreach
    have hout : BufferedCall.inReach f (.setPos nPos) = false := decide_eq_false (not_le.mpr hreach)
    refine ⟨.flag false, (f.setPos nPos).2, ?_, ?_, fun hin => ?_, fun _ => nofun⟩
    · rw [BufferedCall.run, hset]
    · rw [hset]
      refine ⟨h.src_eq, h.size, h.rewind, h.window, Nat.sub_le _ _, ?_⟩
      show f.nSrcPos ≤ f.nSrcPos - f.nRewind + B
      omega
    · rw [hin] at hout
      cases hout
  · have hset : f.setPos nPos = (true, { f with nReadPos := nPos }) := by
      rw [CBufferedFile.setPos, if_neg hreach, if_neg (by omega)]
    have hin : BufferedCall.inReach f (.setPos nPos) = true := decide_eq_true (not_lt.mp hreach)
    refine ⟨.flag true, (f.setPos nPos).2, ?_, ?_, fun _ => ?_, fun hout => ?_⟩
    · rw [BufferedCall.run, hset]
    · rw [hset]
      refine ⟨h.src_eq, h.size, h.rewind, h.window, hback.trans hle, ?_⟩
      show f.nSrcPos ≤ nPos + B
      omega
    · rw [hset]
      rfl
    · rw [hin] at hout
      cases hout

/-- Every call that is looked at returns. -/
theorem CBufferedFile.Ok.call (h : f.Ok src B R) {call : BufferedCall} (hallowed : call.allowed f = true) :
    ∃ result f', Follows src B R f call result f' := by
  cases call with
  | read nSize => exact h.read hs hallowed
  | findByte ch => exact h.findByte hs ch
  | setLimit nPos => exact h.setLimit nPos
  | setPos nPos => exact h.setPos hs hallowed

omit hs in
theorem CBufferedFile.runCalls_cons {call : BufferedCall} {result : BufferedResult} {f' : CBufferedFile}
    (hrun : call.run f = some (result, f')) (calls : List BufferedCall) :
    f.runCalls (call :: calls) =
      (f'.runCalls calls).map fun results => (result, f'.nReadPos) :: results := by
  rw [CBufferedFile.runCalls, hrun, Option.bind_eq_bind, Option.bind_some]
  show (f'.runCalls calls).bind _ = _
  cases f'.runCalls calls <;> rfl

/-- The results of the calls are those of the plain reader, just when every rewind is in reach. -/
theorem CBufferedFile.Ok.runCalls_iff (calls : List BufferedCall) (h : f.Ok src B R)
    (hallowed : f.along BufferedCall.allowed calls = true) :
    f.runCalls calls = some (f.filePos.runCalls src calls) ↔
      f.along BufferedCall.inReach calls = true := by
  induction calls generalizing f with
  | nil => exact iff_of_true rfl rfl
  | cons call calls ih =>
    rw [along, Bool.and_eq_true_iff] at hallowed
    obtain ⟨result, f', hfollows⟩ := h.call hs hallowed.1
    have hrest := ih hfollows.ok (by simpa only [hfollows.run] using hallowed.2)
    rw [runCalls_cons hfollows.run, along, hfollows.run, FilePos.runCalls, Option.map_eq_some_iff]
    cases hin : call.inReach f with
    | false =>
      refine iff_of_false ?_ Bool.false_ne_true
      rintro ⟨results, -, heq⟩
      exact hfollows.refused hin (Prod.mk.inj (List.cons.inj heq).1).1.symm
    | true =>
      rw [hfollows.same hin, Bool.true_and, ← hrest]
      constructor
      · rintro ⟨results, hresults, heq⟩
        rw [hresults, (List.cons.inj heq).2]
      · intro heq
        exact ⟨_, heq, rfl⟩

end

/-- For every file, and every sequence of reads that fit and rewinds of a length that is promised: the
buffered reader gives what the plain reader gives, just when no rewind is to a position more than
`nRewind` before what `Fill` has read. -/
theorem runCalls_faithful_iff (src : Bytes) {nBufSize nRewind : Nat} (hpos : 0 < nRewind)
    (hlt : nRewind < nBufSize) (hsize : nBufSize < 2 ^ 32) (calls : List BufferedCall)
    (hallowed : (CBufferedFile.ofFile src nBufSize nRewind).along BufferedCall.allowed calls = true) :
    (CBufferedFile.ofFile src nBufSize nRewind).runCalls calls =
        some (FilePos.runCalls src ⟨0, 2 ^ 64 - 1⟩ calls) ↔
      (CBufferedFile.ofFile src nBufSize nRewind).along BufferedCall.inReach calls = true :=
  (CBufferedFile.ok_ofFile src nBufSize nRewind).runCalls_iff ⟨hpos, hlt, hsize⟩ calls hallowed

/-- Twelve bytes in a buffer of ten, of which two can be rewound, with calls that stay in reach. -/
theorem runCalls_twelve :
    (CBufferedFile.ofFile [0, 1, 2, 3, 4, 5, 6, 7, 8, 9, 10, 11] 10 2).runCalls
        [.read 8, .setPos 6, .findByte 9, .setLimit 11, .read 2, .read 1] =
      some [(.data [0, 1, 2, 3, 4, 5, 6, 7], 8), (.flag true, 6), (.found, 9), (.flag true, 9),
        (.data [9, 10], 11), (.failure "Read attempted past buffer limit", 11)] :=
  (runCalls_faithful_iff _ (by decide) (by decide) (by decide) _ (by decide)).mpr (by decide)

/-- After one byte has been read, the reader does not go back to the start. -/
theorem runCalls_counterexample :
    (CBufferedFile.ofFile [0, 1, 2, 3, 4, 5, 6, 7, 8, 9, 10, 11] 10 2).along BufferedCall.allowed
        [.read 1, .setPos 0] = true ∧
      (CBufferedFile.ofFile [0, 1, 2, 3, 4, 5, 6, 7, 8, 9, 10, 11] 10 2).runCalls
        [.read 1, .setPos 0] = some [(.data [0], 1), (.flag false, 6)] ∧
      FilePos.runCalls [0, 1, 2, 3, 4, 5, 6, 7, 8, 9, 10, 11] ⟨0, 2 ^ 64 - 1⟩ [.read 1, .setPos 0] =
        [(.data [0], 1), (.flag true, 0)] := by decide

end GC
