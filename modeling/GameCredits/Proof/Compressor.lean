import GameCredits.Proof.CoinsDB

/-!
# The compact encoding of scripts

What `CScriptCompressor::Serialize` writes reads back as the script exactly as long as the script's
size, with the six codes of special scripts added to it, fits an `unsigned int` (`faithful_iff`).

* `Special.length_le`: special scripts are short, so that a long one is written raw.
* `Faithful.of_length`, `not_faithful_of_length`: the two directions.
-/

namespace GC

open Framework
open CCoins (generatorOps generatorOps_lawful generatorX generatorY)

variable {ops : PubKeyOps} {script : CScript}

/-- `CScriptCompressor::Unserialize` into a script that may hold something already: it is left as it
is where `Decompress` fails. -/
def unserializeCompressedScript (ops : PubKeyOps) (script : CScript) : Get CScript := do
  let nSize ← readVarInt 32
  if nSize < nSpecialScripts then do
    let vch ← getBytes (getSpecialSize nSize)
    return (decompressScript ops nSize vch).getD script
  else getBytes (nSize - nSpecialScripts)

/-- What the compact encoding of a script is to give: the script reads back, whatever bytes follow; a
special code stands for a script that `Decompress` rebuilds from the bytes behind it; the size of a
raw script is not a special code. -/
structure Faithful (ops : PubKeyOps) (script : CScript) : Prop where
  inverse : ∀ script' s,
    (unserializeCompressedScript ops script').run (writeScript ops script ++ s) = some (script, s)
  special : ∀ compr, compressScript ops script = some compr →
    ∃ nSize vch, compr = UInt8.ofNat nSize :: vch ∧ nSize < nSpecialScripts ∧
      vch.length = getSpecialSize nSize ∧ decompressScript ops nSize vch = some script
  raw : compressScript ops script = none → ∀ nSize s s',
    (readVarInt 32).run (writeScript ops script ++ s) = some (nSize, s') → nSpecialScripts ≤ nSize

/-- A special script has at most 67 bytes. -/
theorem Special.length_le {n : Nat} {vch : Bytes} (h : Special ops script n vch) :
    script.length ≤ 67 := by
  cases h with
  | keyID len => simp [len]
  | scriptID len => simp [len]
  | even len => simp [len]
  | odd len => simp [len]
  | full lx ly _ => simp [lx, ly]

theorem compressScript_eq_none (h : 67 < script.length) : compressScript ops script = none := by
  cases hc : compressScript ops script with
  | none => rfl
  | some compr =>
    obtain ⟨n, vch, hsp, -⟩ := compressScript_some hc
    exact absurd hsp.length_le (Nat.not_le.mpr h)

/-- Reading a raw script: its size code comes first. -/
theorem readVarInt_raw (hraw : compressScript ops script = none) (s : Bytes) :
    (readVarInt 32).run (writeScript ops script ++ s) =
      some ((script.length + nSpecialScripts) % 2 ^ 32, script ++ s) := by
  rw [writeScript, hraw]
  show (readVarInt 32).run (writeVarInt _ ++ script ++ s) = _
  rw [List.append_assoc]
  exact readVarInt_write (by decide) _ (Nat.mod_lt _ (Nat.two_pow_pos 32)) _

theorem Faithful.of_length (hops : ops.Lawful) (h : script.length + nSpecialScripts < 2 ^ 32) :
    Faithful ops script where
  inverse script' s := by
    cases hc : compressScript ops script with
    | none =>
      have hread := readVarInt_raw hc s
      rw [Nat.mod_eq_of_lt h] at hread
      rw [unserializeCompressedScript, Get.run_bind_some hread, if_neg (by omega), Nat.add_sub_cancel]
      exact getBytes_append script s
    | some compr =>
      obtain ⟨n, vch, hsp, rfl⟩ := compressScript_some hc
      obtain ⟨hn, hsize, hd⟩ := hsp.decompress hops
      have hwrite : writeScript ops script = UInt8.ofNat n :: vch := by rw [writeScript, hc]
      rw [hwrite, List.cons_append, unserializeCompressedScript,
        Get.run_bind_some (readVarInt_special hn _), if_pos hn, hsize,
        Get.run_bind_some (getBytes_append vch s), hd]
      rfl
  special compr hc := by
    obtain ⟨n, vch, hsp, rfl⟩ := compressScript_some hc
    obtain ⟨hn, hsize, hd⟩ := hsp.decompress hops
    exact ⟨n, vch, rfl, hn, hsize.symm, hd⟩
  raw hraw nSize s s' hread := by
    rw [readVarInt_raw hraw, Nat.mod_eq_of_lt h] at hread
    obtain ⟨rfl, -⟩ := Prod.mk.inj (Option.some.inj hread)
    exact Nat.le_add_left _ _

theorem getSpecialSize_le (nSize : Nat) : getSpecialSize nSize ≤ 32 := by
  unfold getSpecialSize
  split_ifs <;> decide

/-- A script of a size that wraps around does not read back: bytes of it are left. -/
theorem not_faithful_of_length (h : 2 ^ 32 ≤ script.length + nSpecialScripts) :
    ¬ Faithful ops script := by
  intro hf
  have hsix : nSpecialScripts = 6 := rfl
  have hread := hf.inverse [] []
  rw [List.append_nil] at hread
  obtain ⟨nSize, rest, hcode, hread⟩ := Get.run_bind_eq_some.mp hread
  have hnone : compressScript ops script = none := compressScript_eq_none (by omega)
  have hraw := readVarInt_raw hnone []
  rw [List.append_nil, List.append_nil, hcode] at hraw
  obtain ⟨rfl, rfl⟩ := Prod.mk.inj (Option.some.inj hraw)
  have hmod : (rest.length + nSpecialScripts) % 2 ^ 32 < 2 ^ 32 := Nat.mod_lt _ (Nat.two_pow_pos 32)
  generalize (rest.length + nSpecialScripts) % 2 ^ 32 = nSize at hmod hread
  -- as many bytes are read as the code says, which are fewer than the script has
  have hall : ∀ n xs, (getBytes n).run rest = some (xs, []) → n = rest.length := by
    intro n xs hn
    obtain ⟨hlen, hrest⟩ := getBytes_eq_some.mp hn
    rw [hrest, List.append_nil, hlen]
  by_cases hn : nSize < nSpecialScripts
  · rw [if_pos hn] at hread
    obtain ⟨vch, s', hvch, hpure⟩ := Get.run_bind_eq_some.mp hread
    obtain ⟨-, rfl⟩ := Prod.mk.inj (Option.some.inj hpure)
    have := hall _ _ hvch
    have := getSpecialSize_le nSize
    omega
  · rw [if_neg hn] at hread
    have := hall _ _ hread
    omega

/-- The scripts that the compact encoding keeps. -/
theorem faithful_iff (hops : ops.Lawful) (script : CScript) :
    Faithful ops script ↔ script.length + nSpecialScripts < 2 ^ 32 :=
  ⟨fun h => Nat.lt_of_not_le fun hlen => not_faithful_of_length hlen h, .of_length hops⟩

/-- A payment to an uncompressed key. -/
theorem faithful_iff_generator :
    Faithful generatorOps (65 :: (0x04 :: (generatorX ++ generatorY)) ++ [OP_CHECKSIG]) ↔
      (65 :: (0x04 :: (generatorX ++ generatorY)) ++ [OP_CHECKSIG]).length + nSpecialScripts <
        2 ^ 32 :=
  faithful_iff generatorOps_lawful _

/-- The size of a raw script of `2 ^ 32 - 6` bytes is written as the code 0, that of a payment to a key
hash. -/
theorem faithful_wrapped :
    generatorOps.Lawful ∧ ¬ Faithful generatorOps (List.replicate (2 ^ 32 - 6) 0) ∧
      ∃ s', (readVarInt 32).run (writeScript generatorOps (List.replicate (2 ^ 32 - 6) 0)) =
        some (0, s') := by
  have hlen : (List.replicate (2 ^ 32 - 6) 0 : CScript).length = 2 ^ 32 - 6 := List.length_replicate
  generalize (List.replicate (2 ^ 32 - 6) 0 : CScript) = script at hlen
  have hsix : nSpecialScripts = 6 := rfl
  have hnone : compressScript generatorOps script = none := compressScript_eq_none (by omega)
  have hraw := readVarInt_raw hnone []
  rw [hlen, List.append_nil] at hraw
  exact ⟨generatorOps_lawful, not_faithful_of_length (by omega), _, hraw⟩

end GC
