import GameCredits.Model.Script

/-!
# Compressed outputs (compressor.h, compressor.cpp)

The compact encoding of amounts, scripts and outputs that undo files and the coin database use.
Validity and decompression of public keys are parameters (`PubKeyOps`).

* `decompressAmount_compress`: the amount encoding is inverted on every amount in `MoneyRange`.
* `readScript_write`, `readTxOut_write`: so are those of scripts and outputs, given that
  decompression inverts the compression of valid keys (`PubKeyOps.Lawful`).
-/

namespace GC

open Framework

/-! ## Amounts -/

/-- The loop of `CompressAmount`: divides by ten while it can, at most `e` times; the quotient and
the number of divisions. -/
def stripZeros : (e : Nat) → Nat → Nat × Nat
  | 0, n => (n, 0)
  | e + 1, n => if n % 10 = 0 then ((stripZeros e (n / 10)).1, (stripZeros e (n / 10)).2 + 1) else (n, 0)

/-- `CTxOutCompressor::CompressAmount`. -/
def compressAmount (n : Nat) : Nat :=
  if n = 0 then 0
  else
    let (n, e) := stripZeros 9 n
    if e < 9 then (1 + (n / 10 * 9 + n % 10 - 1) * 10 + e) % 2 ^ 64
    else (1 + (n - 1) * 10 + 9) % 2 ^ 64

/-- `CTxOutCompressor::DecompressAmount`. -/
def decompressAmount (x : Nat) : Nat :=
  if x = 0 then 0
  else
    let e := (x - 1) % 10
    let x := (x - 1) / 10
    let n := if e < 9 then x / 9 * 10 + (x % 9 + 1) else x + 1
    n * 10 ^ e % 2 ^ 64

/-- A result that a `uint64_t` can hold. -/
def checked (n : Nat) : Option Nat := if n < 2 ^ 64 then some n else none

/-- A number minus one, unless that is below zero. -/
def checkedPred (n : Nat) : Option Nat := if 1 ≤ n then some (n - 1) else none

/-- The last digit, which an assertion of `CompressAmount` takes not to be zero. -/
def lastDigit (n : Nat) : Option Nat := if 1 ≤ n % 10 ∧ n % 10 ≤ 9 then some (n % 10) else none

/-- `CompressAmount` with every operation checked: `none` where one overflows or the assertion
fails. -/
def compressAmountChecked (n : Nat) : Option Nat :=
  if n = 0 then some 0
  else
    let (n, e) := stripZeros 9 n
    if e < 9 then do
      let d ← lastDigit n
      let n ← checked (n / 10 * 9)
      let n ← checked (n + d)
      let n ← checkedPred n
      let n ← checked (n * 10)
      let n ← checked (1 + n)
      checked (n + e)
    else do
      let n ← checkedPred n
      let n ← checked (n * 10)
      let n ← checked (1 + n)
      checked (n + 9)

/-- The last loop of `DecompressAmount`, with every product checked. -/
def scaleChecked : (e : Nat) → Nat → Option Nat
  | 0, n => some n
  | e + 1, n => checked (n * 10) >>= scaleChecked e

/-- `DecompressAmount` with every operation checked. -/
def decompressAmountChecked (x : Nat) : Option Nat :=
  if x = 0 then some 0
  else
    let e := (x - 1) % 10
    let x := (x - 1) / 10
    let n := if e < 9 then checked (x / 9 * 10) >>= fun n => checked (n + (x % 9 + 1)) else checked (x + 1)
    n >>= scaleChecked e

/-- Stripping keeps the number, up to the power of ten; it stops early only at a digit that is not
zero. -/
theorem stripZeros_spec (k n : Nat) :
    (stripZeros k n).1 * 10 ^ (stripZeros k n).2 = n ∧ (stripZeros k n).2 ≤ k ∧
      ((stripZeros k n).2 < k → (stripZeros k n).1 % 10 ≠ 0) := by
  induction k generalizing n with
  | zero => simp [stripZeros]
  | succ k ih =>
    rw [stripZeros]
    split_ifs with h
    · obtain ⟨hn, hk, hd⟩ := ih (n / 10)
      refine ⟨?_, by omega, fun hlt => hd (by omega)⟩
      show (stripZeros k (n / 10)).1 * 10 ^ ((stripZeros k (n / 10)).2 + 1) = n
      rw [pow_succ, ← Nat.mul_assoc, hn]
      omega
    · exact ⟨by simp, Nat.zero_le _, fun _ => h⟩

/-- Amounts below `2^60` compress without overflow. -/
theorem decompressAmount_compress {n : Nat} (hn : n < 2 ^ 60) :
    decompressAmount (compressAmount n) = n := by
  rcases Nat.eq_zero_or_pos n with rfl | hpos
  · rfl
  obtain ⟨hm, he, hd⟩ := stripZeros_spec 9 n
  generalize hme : stripZeros 9 n = me at hm he hd
  obtain ⟨m, e⟩ := me
  have hm : m * 10 ^ e = n := hm
  have hle : m ≤ n := hm ▸ Nat.le_mul_of_pos_right m (pow_pos (by decide) e)
  have hmpos : 0 < m := by
    rcases Nat.eq_zero_or_pos m with rfl | h
    · omega
    · exact h
  rw [compressAmount, if_neg (by omega), hme]
  by_cases h9 : e < 9
  · have hdig : m % 10 ≠ 0 := hd h9
    simp only [h9, if_true]
    rw [Nat.mod_eq_of_lt (by omega), decompressAmount, if_neg (by omega)]
    have hx : 1 + (m / 10 * 9 + m % 10 - 1) * 10 + e - 1 = 10 * (m / 10 * 9 + m % 10 - 1) + e := by omega
    have he10 : (10 * (m / 10 * 9 + m % 10 - 1) + e) % 10 = e := by omega
    have hq : (10 * (m / 10 * 9 + m % 10 - 1) + e) / 10 = m / 10 * 9 + m % 10 - 1 := by omega
    have hback : (m / 10 * 9 + m % 10 - 1) / 9 * 10 + ((m / 10 * 9 + m % 10 - 1) % 9 + 1) = m := by omega
    simp only [hx, he10, hq, h9, if_true, hback, hm]
    omega
  · obtain rfl : e = 9 := by omega
    simp only [Nat.lt_irrefl, if_false]
    rw [Nat.mod_eq_of_lt (by omega), decompressAmount, if_neg (by omega)]
    have hx : 1 + (m - 1) * 10 + 9 - 1 = 10 * (m - 1) + 9 := by omega
    have he10 : (10 * (m - 1) + 9) % 10 = 9 := by omega
    have hq : (10 * (m - 1) + 9) / 10 = m - 1 := by omega
    have hback : m - 1 + 1 = m := by omega
    simp only [hx, he10, hq, Nat.lt_irrefl, if_false, hback, hm]
    omega

theorem compressAmount_lt (n : Nat) : compressAmount n < 2 ^ 64 := by
  rw [compressAmount]
  split_ifs
  · exact Nat.two_pow_pos 64
  · show (if (stripZeros 9 n).2 < 9 then _ else _) < _
    split_ifs <;> exact Nat.mod_lt _ (Nat.two_pow_pos 64)

/-! ## Scripts -/

/-- What the compressor uses of `CPubKey`: `IsFullyValid`, and `Decompress` (`none` where it
returns false). -/
structure PubKeyOps where
  isFullyValid : Bytes → Bool
  decompress : Bytes → Option Bytes

/-- A valid uncompressed key is recovered from its first coordinate and the parity of its second. -/
def PubKeyOps.Lawful (ops : PubKeyOps) : Prop :=
  ∀ x y : Bytes, x.length = 32 → y.length = 32 → ops.isFullyValid (0x04 :: (x ++ y)) = true →
    ops.decompress ((0x02 + (y.getD 31 0 &&& 1)) :: x) = some (0x04 :: (x ++ y))

def nSpecialScripts : Nat := 6

/-- `CScriptCompressor::IsToKeyID`: the key hash. -/
def isToKeyID (script : CScript) : Option Bytes :=
  if script.length = 25 ∧ script.take 3 = [OP_DUP, OP_HASH160, 20] ∧
      script.drop 23 = [OP_EQUALVERIFY, OP_CHECKSIG] then some ((script.drop 3).take 20) else none

/-- `CScriptCompressor::IsToScriptID`: the script hash. -/
def isToScriptID (script : CScript) : Option Bytes :=
  if script.length = 23 ∧ script.take 2 = [OP_HASH160, 20] ∧ script.drop 22 = [OP_EQUAL] then
    some ((script.drop 2).take 20) else none

/-- `CScriptCompressor::IsToPubKey`: the key. -/
def isToPubKey (ops : PubKeyOps) (script : CScript) : Option Bytes :=
  if script.length = 35 ∧ script.take 1 = [33] ∧ script.drop 34 = [OP_CHECKSIG] ∧
      ((script.drop 1).take 1 = [0x02] ∨ (script.drop 1).take 1 = [0x03]) then
    some ((script.drop 1).take 33)
  else if script.length = 67 ∧ script.take 1 = [65] ∧ script.drop 66 = [OP_CHECKSIG] ∧
      (script.drop 1).take 1 = [0x04] then
    if ops.isFullyValid ((script.drop 1).take 65) then some ((script.drop 1).take 65) else none
  else none

/-- `CScriptCompressor::Compress`. -/
def compressScript (ops : PubKeyOps) (script : CScript) : Option Bytes :=
  match isToKeyID script with
  | some keyID => some (0x00 :: keyID)
  | none =>
    match isToScriptID script with
    | some scriptID => some (0x01 :: scriptID)
    | none =>
      match isToPubKey ops script with
      | none => none
      | some pubkey =>
        let pubkey0 := pubkey.headD 0
        let x := (pubkey.drop 1).take 32
        if pubkey0 = 0x02 ∨ pubkey0 = 0x03 then some (pubkey0 :: x)
        else if pubkey0 = 0x04 then some ((0x04 ||| (pubkey.getD 64 0 &&& 1)) :: x)
        else none

/-- `CScriptCompressor::GetSpecialSize`. -/
def getSpecialSize (nSize : Nat) : Nat :=
  if nSize = 0 ∨ nSize = 1 then 20
  else if nSize = 2 ∨ nSize = 3 ∨ nSize = 4 ∨ nSize = 5 then 32
  else 0

/-- `CScriptCompressor::Decompress`; `none` where it returns false and leaves the script. -/
def decompressScript (ops : PubKeyOps) (nSize : Nat) (vch : Bytes) : Option CScript :=
  match nSize with
  | 0 => some ([OP_DUP, OP_HASH160, 20] ++ vch ++ [OP_EQUALVERIFY, OP_CHECKSIG])
  | 1 => some ([OP_HASH160, 20] ++ vch ++ [OP_EQUAL])
  | 2 => some ([33, 0x02] ++ vch ++ [OP_CHECKSIG])
  | 3 => some ([33, 0x03] ++ vch ++ [OP_CHECKSIG])
  | 4 => (ops.decompress (0x02 :: vch)).map fun pubkey => 65 :: pubkey ++ [OP_CHECKSIG]
  | 5 => (ops.decompress (0x03 :: vch)).map fun pubkey => 65 :: pubkey ++ [OP_CHECKSIG]
  | _ => none

/-- `CScriptCompressor::Serialize`. -/
def writeScript (ops : PubKeyOps) (script : CScript) : Bytes :=
  match compressScript ops script with
  | some compr => compr
  | none => writeVarInt ((script.length + nSpecialScripts) % 2 ^ 32) ++ script

/-- `CScriptCompressor::Unserialize` into an empty script. -/
def readScript (ops : PubKeyOps) : Get CScript := do
  let nSize ← readVarInt 32
  if nSize < nSpecialScripts then do
    let vch ← getBytes (getSpecialSize nSize)
    return (decompressScript ops nSize vch).getD []
  else getBytes (nSize - nSpecialScripts)

/-- The special forms of scripts, with the number that stands for each and the bytes kept. -/
inductive Special (ops : PubKeyOps) : CScript → Nat → Bytes → Prop
  | keyID {h} (len : h.length = 20) :
      Special ops ([OP_DUP, OP_HASH160, 20] ++ h ++ [OP_EQUALVERIFY, OP_CHECKSIG]) 0 h
  | scriptID {h} (len : h.length = 20) : Special ops ([OP_HASH160, 20] ++ h ++ [OP_EQUAL]) 1 h
  | even {x} (len : x.length = 32) : Special ops ([33, 0x02] ++ x ++ [OP_CHECKSIG]) 2 x
  | odd {x} (len : x.length = 32) : Special ops ([33, 0x03] ++ x ++ [OP_CHECKSIG]) 3 x
  | full {x y} (lx : x.length = 32) (ly : y.length = 32)
      (valid : ops.isFullyValid (0x04 :: (x ++ y)) = true) :
      Special ops (65 :: (0x04 :: (x ++ y)) ++ [OP_CHECKSIG]) (4 + (y.getD 31 0 &&& 1).toNat) x

/-- The last bit of a byte. -/
theorem and_one_cases (b : UInt8) : b &&& 1 = 0 ∨ b &&& 1 = 1 := by
  have h : (b &&& 1).toNat = b.toNat % 2 := by
    rw [UInt8.toNat_and]; exact Nat.and_two_pow_sub_one_eq_mod _ 1
  rcases Nat.mod_two_eq_zero_or_one b.toNat with h' | h' <;> rw [h'] at h
  · exact .inl (UInt8.toNat_inj.mp h)
  · exact .inr (UInt8.toNat_inj.mp h)

/-- A list with a known start and end is made of them and what stands between. -/
theorem eq_append_middle {α : Type} {n m : Nat} {xs p q : List α} (hp : xs.take n = p)
    (hq : xs.drop (n + m) = q) (hlen : n + m ≤ xs.length) :
    ∃ ys, (xs.drop n).take m = ys ∧ ys.length = m ∧ xs = p ++ ys ++ q := by
  refine ⟨_, rfl, by simp; omega, ?_⟩
  rw [← hp, ← hq, List.append_assoc, ← List.drop_drop, List.take_append_drop,
    List.take_append_drop]

/-- A compressed script is of a special form, and its encoding is the form's number and the bytes
kept. -/
theorem compressScript_some {ops : PubKeyOps} {script : CScript} {compr : Bytes}
    (h : compressScript ops script = some compr) :
    ∃ n vch, Special ops script n vch ∧ compr = UInt8.ofNat n :: vch := by
  unfold compressScript at h
  split at h
  · rename_i keyID hk
    unfold isToKeyID at hk
    split_ifs at hk with hc
    obtain ⟨hl, ht, hd⟩ := hc
    obtain ⟨ys, hys, hlen, hs⟩ := eq_append_middle (m := 20) ht hd (by omega)
    rw [hys] at hk
    cases hk; cases h
    exact ⟨0, _, hs ▸ .keyID hlen, rfl⟩
  split at h
  · rename_i scriptID hk
    unfold isToScriptID at hk
    split_ifs at hk with hc
    obtain ⟨hl, ht, hd⟩ := hc
    obtain ⟨ys, hys, hlen, hs⟩ := eq_append_middle (m := 20) ht hd (by omega)
    rw [hys] at hk
    cases hk; cases h
    exact ⟨1, _, hs ▸ .scriptID hlen, rfl⟩
  split at h
  · cases h
  rename_i pubkey hk
  unfold isToPubKey at hk
  split_ifs at hk with hc hc' hv
  · -- a compressed key: its header byte is the number of the form
    obtain ⟨hl, ht, hd, hh⟩ := hc
    obtain ⟨key, hkey, hlen, hs⟩ := eq_append_middle (m := 33) ht hd (by omega)
    rw [hkey] at hk
    cases hk
    obtain ⟨b, x, rfl⟩ := List.exists_cons_of_length_eq_add_one hlen
    have hx : x.length = 32 := by simpa using hlen
    have hb : (script.drop 1).take 1 = [b] := by rw [hs]; rfl
    rw [hb] at hh
    rcases hh with hh | hh <;> cases hh <;> cases h
    · exact ⟨2, x, by rw [hs]; exact .even hx, by simp [hx]⟩
    · exact ⟨3, x, by rw [hs]; exact .odd hx, by simp [hx]⟩
  · -- an uncompressed key: the parity of its second coordinate goes into the number
    obtain ⟨hl, ht, hd, hh⟩ := hc'
    obtain ⟨key, hkey, hlen, hs⟩ := eq_append_middle (m := 65) ht hd (by omega)
    rw [hkey] at hk hv
    cases hk
    obtain ⟨b, xy, rfl⟩ := List.exists_cons_of_length_eq_add_one hlen
    have hxy : xy.length = 64 := by simpa using hlen
    have hb : (script.drop 1).take 1 = [b] := by rw [hs]; rfl
    rw [hb] at hh
    cases hh; cases h
    obtain ⟨x, y, rfl, hx⟩ : ∃ x y, xy = x ++ y ∧ x.length = 32 :=
      ⟨_, _, (List.take_append_drop 32 xy).symm, by simp [hxy]⟩
    have hy : y.length = 32 := by rw [List.length_append] at hxy; omega
    have hpar : (0x04 :: (x ++ y)).getD 64 0 = y.getD 31 0 := by
      simp [List.getD_eq_getElem?_getD, List.getElem?_append_right, hx]
    refine ⟨_, x, hs ▸ Special.full hx hy hv, ?_⟩
    rw [hpar]
    rcases and_one_cases (y.getD 31 0) with h1 | h1
    · rw [h1]; simp [hx]
    · rw [h1]; simp [hx]; decide

/-- Decompressing a special form gives the script back. -/
theorem Special.decompress {ops : PubKeyOps} (hops : ops.Lawful) {script : CScript} {n : Nat}
    {vch : Bytes} (h : Special ops script n vch) :
    n < nSpecialScripts ∧ getSpecialSize n = vch.length ∧
      decompressScript ops n vch = some script := by
  cases h with
  | keyID len => exact ⟨by decide, len.symm, rfl⟩
  | scriptID len => exact ⟨by decide, len.symm, rfl⟩
  | even len => exact ⟨by decide, len.symm, rfl⟩
  | odd len => exact ⟨by decide, len.symm, rfl⟩
  | full lx ly valid =>
    rename_i y
    have hd := hops vch y lx ly valid
    rcases and_one_cases (y.getD 31 0) with h1 | h1 <;> rw [h1] at hd ⊢
    · refine ⟨by decide, by rw [lx]; decide, ?_⟩
      show (ops.decompress (0x02 :: vch)).map _ = _
      rw [show (0x02 : UInt8) = 0x02 + 0 from rfl, hd]; rfl
    · refine ⟨by decide, by rw [lx]; decide, ?_⟩
      show (ops.decompress (0x03 :: vch)).map _ = _
      rw [show (0x03 : UInt8) = 0x02 + 1 from rfl, hd]; rfl

/-- The number of a special form reads back from its byte. -/
theorem readVarInt_special {n : Nat} (hn : n < nSpecialScripts) (s : Bytes) :
    (readVarInt 32).run (UInt8.ofNat n :: s) = some (n, s) := by
  have hn : n < 6 := hn
  have h := readVarIntFrom_low 32 0 (d := n) (by omega) (by omega) s
  rw [Nat.mul_zero, Nat.zero_add] at h
  exact h

theorem readScript_write {ops : PubKeyOps} (hops : ops.Lawful) :
    RoundTrip (writeScript ops) (readScript ops) (·.length + nSpecialScripts < 2 ^ 32) := by
  intro script hlen s
  have hlen : script.length + nSpecialScripts < 2 ^ 32 := hlen
  rw [writeScript]
  split
  · rename_i compr hc
    obtain ⟨n, vch, hsp, rfl⟩ := compressScript_some hc
    obtain ⟨hn, hsize, hd⟩ := hsp.decompress hops
    rw [List.cons_append, readScript, Get.run_bind_some (readVarInt_special hn _), if_pos hn, hsize,
      Get.run_bind_some (getBytes_append vch s), hd]
    rfl
  · rw [Nat.mod_eq_of_lt hlen, List.append_assoc, readScript,
      Get.run_bind_some (readVarInt_write (by decide) _ hlen _), if_neg (by omega),
      Nat.add_sub_cancel]
    exact getBytes_append script s

/-! ## Outputs -/

/-- `CTxOutCompressor` for writing. -/
def writeTxOut (ops : PubKeyOps) (txout : CTxOut) : Bytes :=
  writeVarInt (compressAmount (txout.nValue % 2 ^ 64).toNat) ++ writeScript ops txout.scriptPubKey

/-- `CTxOutCompressor` for the size: `CSizeComputer` adds up what is written, and the sum becomes an
`unsigned int`. -/
def getSerializeSizeTxOut (ops : PubKeyOps) (txout : CTxOut) : Nat :=
  (writeTxOut ops txout).length % 2 ^ 32

/-- `CTxOutCompressor` for reading. -/
def readTxOut (ops : PubKeyOps) : Get CTxOut := do
  let nVal ← readVarInt 64
  let scriptPubKey ← readScript ops
  return ⟨int64 (decompressAmount nVal), scriptPubKey⟩

/-- The outputs that survive the compact encoding: an amount in range and a script whose size fits
an `unsigned int`. -/
def CTxOut.Compressible (txout : CTxOut) : Prop :=
  moneyRange txout.nValue = true ∧ txout.scriptPubKey.length + nSpecialScripts < 2 ^ 32

theorem readTxOut_write {ops : PubKeyOps} (hops : ops.Lawful) :
    RoundTrip (writeTxOut ops) (readTxOut ops) CTxOut.Compressible := by
  rintro txout ⟨hval, hscript⟩ s
  have hmax := MAX_MONEY_eq
  obtain ⟨h₀, h₁⟩ := moneyRange_iff.mp hval
  have hmod : (txout.nValue % 2 ^ 64).toNat = txout.nValue.toNat := by
    rw [Int.emod_eq_of_lt h₀ (by omega)]
  rw [writeTxOut, List.append_assoc, readTxOut,
    Get.run_bind_some (readVarInt_write (by decide) _ (compressAmount_lt _) _),
    Get.run_bind_some (readScript_write hops _ hscript s), hmod,
    decompressAmount_compress (by omega), Int.toNat_of_nonneg h₀,
    int64_eq (by omega) (by omega), Get.run_pure]

end GC
