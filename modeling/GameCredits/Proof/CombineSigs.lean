import GameCredits.Model.CombineSigs
import GameCredits.Proof.SigOps
import GameCredits.Proof.Sign

/-!
# Combining signatures

The signatures of both sides are pooled in a sorted set, so that their order and their number do not
matter; each key takes the least one that is valid for it (`lookup_matchSigs`). The first `m` of these,
pooled again with what they came from, are taken again (`mergedValues_again`).

* `combineSignatures_merges`: what two `scriptSig`s are combined to.
-/

namespace GC

open Framework (Bytes)
open Framework.Assoc (Map)
open Framework

theorem totalLess_bytes : SortedSet.Total bytesLess where
  irrefl _ := decide_eq_false (List.lt_irrefl _)
  trans _ _ _ hab hbc := decide_eq_true (List.lt_trans (of_decide_eq_true hab) (of_decide_eq_true hbc))
  tri _ _ hab hba := List.le_antisymm (of_decide_eq_false hba) (of_decide_eq_false hab)

/-! ## The pool -/

section

variable {sigs sigs1 sigs2 sigs1' sigs2' : Stack} {allsigs : List Bytes} {sig : Bytes}

theorem insertSigs_spec (h : SortedSet.Sorted bytesLess allsigs) :
    SortedSet.Sorted bytesLess (insertSigs sigs allsigs) ∧
      ∀ sig, sig ∈ insertSigs sigs allsigs ↔ sig ∈ sigs ∧ sig ≠ [] ∨ sig ∈ allsigs := by
  induction sigs with
  | nil => exact ⟨h, fun sig => by simp [insertSigs]⟩
  | cons v sigs ih =>
    obtain ⟨hsorted, hmem⟩ := ih
    rw [insertSigs, List.foldr_cons]
    split_ifs with hempty
    · refine ⟨hsorted, fun sig => (hmem sig).trans ?_⟩
      rw [List.isEmpty_iff.mp hempty, List.mem_cons]
      tauto
    · refine ⟨SortedSet.sorted_insert totalLess_bytes hsorted, fun sig => ?_⟩
      refine (SortedSet.mem_insert totalLess_bytes hsorted).trans ?_
      have hv : v ≠ [] := fun h => hempty (List.isEmpty_iff.mpr h)
      rw [hmem, List.mem_cons]
      constructor
      · rintro (rfl | ⟨hsig, hne⟩ | hsig)
        · exact .inl ⟨.inl rfl, hv⟩
        · exact .inl ⟨.inr hsig, hne⟩
        · exact .inr hsig
      · rintro (⟨rfl | hsig, hne⟩ | hsig)
        · exact .inl rfl
        · exact .inr (.inl ⟨hsig, hne⟩)
        · exact .inr (.inr hsig)

/-- The signatures of both sides. -/
def pooled (sigs1 sigs2 : Stack) : List Bytes := insertSigs sigs2 (insertSigs sigs1 [])

theorem sorted_pooled (sigs1 sigs2 : Stack) : SortedSet.Sorted bytesLess (pooled sigs1 sigs2) :=
  (insertSigs_spec (insertSigs_spec .nil).1).1

theorem mem_pooled : sig ∈ pooled sigs1 sigs2 ↔ (sig ∈ sigs1 ∨ sig ∈ sigs2) ∧ sig ≠ [] := by
  rw [pooled, (insertSigs_spec (insertSigs_spec .nil).1).2, (insertSigs_spec .nil).2]
  simp only [List.not_mem_nil, or_false]
  tauto

theorem pooled_congr
    (h : ∀ sig, sig ≠ [] → ((sig ∈ sigs1 ∨ sig ∈ sigs2) ↔ (sig ∈ sigs1' ∨ sig ∈ sigs2'))) :
    pooled sigs1 sigs2 = pooled sigs1' sigs2' :=
  SortedSet.ext totalLess_bytes (sorted_pooled _ _) (sorted_pooled _ _) fun sig => by
    rw [mem_pooled, mem_pooled]
    exact and_congr_left fun hne => h sig hne

end

/-! ## The signature of a key -/

section

variable {checker : Checker} {script : CScript} {m : Nat} {keys : List Bytes}

/-- No signature is valid for two of the keys. -/
def ValidOnce (checker : Checker) (script : CScript) (keys : List Bytes) : Prop :=
  ∀ sig, ∀ key ∈ keys, ∀ key' ∈ keys, checker.checkSig sig key script = true →
    checker.checkSig sig key' script = true → key = key'

/-- A key that has a signature keeps it, and one for which the signature is not valid does not get
it. -/
theorem lookup_matchSig_keep {sig key : Bytes} {pubkeys : List Bytes} {sigs : Map Bytes Bytes}
    (h : (sigs.lookup key).isSome = true ∨ checker.checkSig sig key script = false) :
    (matchSig checker script sig pubkeys sigs).lookup key = sigs.lookup key := by
  induction pubkeys with
  | nil => rfl
  | cons pubkey pubkeys ih =>
    rw [matchSig]
    split_ifs with hhas hvalid
    · exact ih
    · refine AList.lookup_insert_ne fun hkey => ?_
      rcases h with h | h
      · exact hhas (hkey ▸ h)
      · rw [hkey, hvalid] at h
        cases h
    · exact ih

theorem lookup_matchSig_found {sig key : Bytes} {pubkeys : List Bytes} {sigs : Map Bytes Bytes}
    (honce : ValidOnce checker script pubkeys) (hkey : key ∈ pubkeys)
    (hnone : sigs.lookup key = none) (hvalid : checker.checkSig sig key script = true) :
    (matchSig checker script sig pubkeys sigs).lookup key = some sig := by
  induction pubkeys with
  | nil => cases hkey
  | cons pubkey pubkeys ih =>
    have honce' : ValidOnce checker script pubkeys := fun sig key hkey key' hkey' =>
      honce sig key (List.mem_cons_of_mem _ hkey) key' (List.mem_cons_of_mem _ hkey')
    have hlater : pubkey ≠ key → key ∈ pubkeys := fun hne =>
      (List.mem_cons.mp hkey).resolve_left (Ne.symm hne)
    rw [matchSig]
    split_ifs with hhas hpub
    · refine ih honce' (hlater fun heq => ?_)
      rw [heq, hnone] at hhas
      cases hhas
    · rw [honce sig pubkey List.mem_cons_self key hkey hpub hvalid]
      exact AList.lookup_insert sigs
    · exact ih honce' (hlater fun heq => hpub (heq ▸ hvalid))

/-- Each key gets the first signature that is valid for it. -/
theorem lookup_matchSigs {allsigs pubkeys : List Bytes} {key : Bytes}
    (honce : ValidOnce checker script pubkeys) (hkey : key ∈ pubkeys) :
    (matchSigs checker script allsigs pubkeys).lookup key =
      allsigs.find? fun sig => checker.checkSig sig key script := by
  have hfold : ∀ sigs : Map Bytes Bytes,
      (allsigs.foldl (fun sigs sig => matchSig checker script sig pubkeys sigs) sigs).lookup key =
        (sigs.lookup key).or (allsigs.find? fun sig => checker.checkSig sig key script) := by
    induction allsigs with
    | nil => exact fun sigs => (Option.or_none).symm
    | cons sig allsigs ih =>
      intro sigs
      rw [List.foldl_cons, ih]
      cases hvalid : checker.checkSig sig key script with
      | false =>
        rw [lookup_matchSig_keep (.inr hvalid), List.find?_cons_of_neg (by rw [hvalid]; decide)]
      | true =>
        have hfirst : (sig :: allsigs).find? (fun sig => checker.checkSig sig key script) = some sig :=
          List.find?_cons_of_pos hvalid
        rw [hfirst]
        cases hhas : sigs.lookup key with
        | none =>
          rw [lookup_matchSig_found honce hkey hhas hvalid]
          rfl
        | some sig' =>
          rw [lookup_matchSig_keep (.inl (by rw [hhas]; rfl)), hhas]
          rfl
  rw [matchSigs, hfold]
  rfl

/-! ## What is merged -/

theorem mergeSigs_eq (sigs : Map Bytes Bytes) (nLeft : Nat) (pubkeys : List Bytes) (result : CScript) :
    mergeSigs sigs nLeft pubkeys result =
      (nLeft - (pubkeys.filterMap sigs.lookup).length,
        result ++ ((pubkeys.filterMap sigs.lookup).take nLeft).flatMap pushData) := by
  refine appendFound_eq (fun nLeft _ => ?_) (fun pubkeys _ => ?_) (fun nLeft key _ _ hsig => ?_)
    (fun nLeft key _ _ sig hsig => ?_) nLeft pubkeys result
  · cases nLeft <;> rfl
  · cases pubkeys <;> rfl
  · rw [mergeSigs, hsig]
  · rw [mergeSigs, hsig]

/-- The signatures that the keys get from a pool. -/
def keySigs (checker : Checker) (script : CScript) (keys allsigs : List Bytes) : List Bytes :=
  SortedSet.leasts (fun key sig => checker.checkSig sig key script) keys allsigs

/-- The values that are pushed for `m` signatures. -/
def mergedValues (m : Nat) (sigs : List Bytes) : List Bytes :=
  [] :: (sigs.take m ++ List.replicate (m - sigs.length) [])

theorem flatMap_placeholders (n : Nat) :
    (List.replicate n ([] : Bytes)).flatMap pushData = List.replicate n 0x00 := by
  induction n with
  | zero => rfl
  | succ n ih =>
    rw [List.replicate_succ, List.flatMap_cons, ih]
    rfl

theorem combineMultisig_eq (honce : ValidOnce checker script keys) (hm : m ≤ 16) (sigs1 sigs2 : Stack)
    (last : Bytes) :
    combineMultisig checker script ([UInt8.ofNat m] :: (keys ++ [last])) sigs1 sigs2 =
      (mergedValues m (keySigs checker script keys (pooled sigs1 sigs2))).flatMap pushData := by
  have hfront : ((([UInt8.ofNat m] :: (keys ++ [last])).headD []).headD 0).toNat = m :=
    UInt8.toNat_ofNat_of_lt' (show m < 256 by omega)
  have hkeys : ([UInt8.ofNat m] :: (keys ++ [last])).tail.dropLast = keys :=
    List.dropLast_concat
  have hlookup : keys.filterMap
      (matchSigs checker script (insertSigs sigs2 (insertSigs sigs1 [])) keys).lookup =
      keySigs checker script keys (pooled sigs1 sigs2) :=
    List.filterMap_congr fun key hkey => lookup_matchSigs honce hkey
  rw [combineMultisig]
  simp only [hfront, hkeys, mergeSigs_eq, hlookup]
  rw [mergedValues, List.flatMap_cons, List.flatMap_append, flatMap_placeholders, List.append_assoc]
  rfl

/-- The keys that a signature is there for. -/
def signedKeys (checker : Checker) (script : CScript) (keys values : List Bytes) : List Bytes :=
  keys.filter fun key => values.any fun sig => !sig.isEmpty && checker.checkSig sig key script

theorem keySigs_valid (checker : Checker) (script : CScript) (keys : List Bytes) (sigs1 sigs2 : Stack) :
    List.Forall₂ (fun sig key => sig ∈ sigs1 ++ sigs2 ∧ sig ≠ [] ∧ checker.checkSig sig key script = true)
      (keySigs checker script keys (pooled sigs1 sigs2))
      (signedKeys checker script keys (sigs1 ++ sigs2)) := by
  have hsigned : signedKeys checker script keys (sigs1 ++ sigs2) =
      keys.filter fun key => (pooled sigs1 sigs2).any fun sig => checker.checkSig sig key script := by
    refine List.filter_congr fun key _ => Bool.eq_iff_iff.mpr ?_
    simp only [List.any_eq_true, mem_pooled, List.mem_append, Bool.and_eq_true, Bool.not_eq_true',
      List.isEmpty_eq_false_iff]
    exact ⟨fun ⟨sig, hsig, hne, hvalid⟩ => ⟨sig, ⟨hsig, hne⟩, hvalid⟩,
      fun ⟨sig, ⟨hsig, hne⟩, hvalid⟩ => ⟨sig, hsig, hne, hvalid⟩⟩
  rw [hsigned]
  refine (SortedSet.forall₂_leasts _ keys (pooled sigs1 sigs2)).imp fun sig key ⟨hmem, hvalid⟩ => ?_
  obtain ⟨hsig, hne⟩ := mem_pooled.mp hmem
  exact ⟨List.mem_append.mpr hsig, hne, hvalid⟩

/-- What was merged, with signatures that were there before, gives the same again. -/
theorem mergedValues_again {sigs1 sigs2 sigs : Stack}
    (hsigs : ∀ sig ∈ sigs, sig ≠ [] → sig ∈ sigs1 ∨ sig ∈ sigs2) :
    mergedValues m (keySigs checker script keys
        (pooled (mergedValues m (keySigs checker script keys (pooled sigs1 sigs2))).reverse sigs)) =
      mergedValues m (keySigs checker script keys (pooled sigs1 sigs2)) := by
  obtain ⟨merged, hmerged⟩ : ∃ merged,
      merged = mergedValues m (keySigs checker script keys (pooled sigs1 sigs2)) := ⟨_, rfl⟩
  have hpooled : ∀ sig ∈ keySigs checker script keys (pooled sigs1 sigs2), sig ∈ pooled sigs1 sigs2 :=
    fun _ hsig => SortedSet.mem_of_mem_leasts hsig
  have htake : (keySigs checker script keys (pooled merged.reverse sigs)).take m =
      (keySigs checker script keys (pooled sigs1 sigs2)).take m := by
    refine SortedSet.leasts_take totalLess_bytes _ (sorted_pooled _ _) (sorted_pooled _ _)
      (fun sig hsig => ?_) fun sig hsig => ?_
    · obtain ⟨hsig, hne⟩ := mem_pooled.mp hsig
      rcases hsig with hsig | hsig
      · rw [List.mem_reverse, hmerged, mergedValues] at hsig
        rcases List.mem_cons.mp hsig with hnil | hsig
        · exact absurd hnil hne
        rcases List.mem_append.mp hsig with hsig | hsig
        · exact hpooled sig (List.mem_of_mem_take hsig)
        · exact absurd (List.eq_of_mem_replicate hsig) hne
      · exact mem_pooled.mpr ⟨hsigs sig hsig hne, hne⟩
    · refine mem_pooled.mpr ⟨.inl ?_, (mem_pooled.mp (hpooled sig (List.mem_of_mem_take hsig))).2⟩
      rw [List.mem_reverse, hmerged, mergedValues]
      exact List.mem_cons_of_mem _ (List.mem_append_left _ hsig)
  have hlen := congrArg List.length htake
  rw [List.length_take, List.length_take] at hlen
  rw [← hmerged]
  conv_rhs => rw [hmerged]
  rw [mergedValues, mergedValues, htake]
  congr 3
  omega

end

/-! ## Evaluation -/

section

variable {checker : Checker} {flags : UInt32}

theorem evalScript_small {script : CScript} {stack : Stack}
    (h : evalScript checker flags [] script = .ok stack) : Small stack := by
  obtain ⟨_, -, h⟩ := bind_eq_ok.mp h
  obtain ⟨st, hloop, h⟩ := bind_eq_ok.mp h
  obtain ⟨_, -, h⟩ := bind_eq_ok.mp h
  cases h
  have hsafe := (evalLoop_safe checker flags [] script (Nat.zero_le _) nofun).1 script.length
  have hloop : evalOps checker script.length flags (.init [] script) = .ok st := catchAll_ok hloop
  rw [hloop] at hsafe
  exact fun vch hvch => hsafe.2.1 vch (List.mem_append_left _ hvch)

theorem canPush_strictEnc {b : Bytes} (h : b.length ≤ MAX_SCRIPT_ELEMENT_SIZE) :
    CanPush SCRIPT_VERIFY_STRICTENC b := ⟨fun hflag => absurd hflag (by decide), h⟩

end

/-! ## Redeem scripts -/

/-- `script` takes `m` signatures for `keys`. -/
structure IsMultisig (options : SolverOptions) (m : Nat) (keys : List Bytes) (script : CScript) :
    Prop where
  le : m ≤ 16
  solved : solver options script =
    some (.MULTISIG, [UInt8.ofNat m] :: (keys ++ [[UInt8.ofNat keys.length]]))

/-- `script` is what has to be paid for: it is the `scriptPubKey`, or the redeem script, which is on top
of the stack that a `scriptSig` leaves. -/
inductive Locked (script : CScript) : (scriptPubKey : CScript) → (redeem : Stack) → Prop
  | bare : Locked script script []
  | redeemed {scriptPubKey : CScript} (h : isPayToScriptHash scriptPubKey = true) :
    Locked script scriptPubKey [script]

section

variable {options : SolverOptions} {checker : Checker} {m : Nat} {keys : List Bytes}
  {script scriptPubKey : CScript} {redeem : Stack}

theorem IsMultisig.ne_nil (h : IsMultisig options m keys script) : script ≠ [] := fun hnil => by
  have hsolved := h.solved
  rw [hnil, solver_nil] at hsolved
  cases hsolved

theorem combineStacks_locked (hscript : IsMultisig options m keys script)
    (hlocked : Locked script scriptPubKey redeem) (sigs1 sigs2 : Stack) :
    combineStacks options checker (redeem ++ sigs1) (redeem ++ sigs2) scriptPubKey
        (solverRet options scriptPubKey).2.1 (solverRet options scriptPubKey).2.2 =
      combineMultisig checker script ([UInt8.ofNat m] :: (keys ++ [[UInt8.ofNat keys.length]]))
        sigs1 sigs2 ++ redeem.flatMap pushData := by
  have hret := solver_eq_some.mp hscript.solved
  cases hlocked with
  | bare =>
    rw [hret, List.flatMap_nil, List.append_nil]
    cases sigs1 <;> rfl
  | redeemed h =>
    have htype : solverRet options scriptPubKey = (true, .SCRIPTHASH, [(scriptPubKey.drop 2).take 20]) := by
      rw [solverRet, if_pos h]
    have hne : script.isEmpty = false := List.isEmpty_eq_false_iff.mpr hscript.ne_nil
    rw [htype]
    show combineStacks options checker (script :: sigs1) (script :: sigs2) scriptPubKey .SCRIPTHASH _ = _
    rw [combineStacks, hret]
    simp only [hne, List.headD_cons, List.tail_cons, List.flatMap_singleton]
    cases sigs1 <;> rfl

theorem combineSignatures_locked (hscript : IsMultisig options m keys script)
    (hlocked : Locked script scriptPubKey redeem) (honce : ValidOnce checker script keys)
    {scriptSig1 scriptSig2 : CScript} {sigs1 sigs2 : Stack}
    (h1 : evalScript (baseSignatureChecker checker) SCRIPT_VERIFY_STRICTENC [] scriptSig1 =
      .ok (redeem ++ sigs1))
    (h2 : evalScript (baseSignatureChecker checker) SCRIPT_VERIFY_STRICTENC [] scriptSig2 =
      .ok (redeem ++ sigs2)) :
    combineSignatures options checker scriptPubKey scriptSig1 scriptSig2 = some
      ((mergedValues m (keySigs checker script keys (pooled sigs1 sigs2)) ++ redeem).flatMap
        pushData) := by
  rw [combineSignatures, h1, h2, List.flatMap_append, ← combineMultisig_eq honce hscript.le]
  exact congrArg some (combineStacks_locked hscript hlocked sigs1 sigs2)

theorem length_mergedValues (m : Nat) (sigs : List Bytes) : (mergedValues m sigs).length = m + 1 := by
  rw [mergedValues, List.length_cons, List.length_append, List.length_take, List.length_replicate]
  omega

theorem mem_mergedValues {sigs : List Bytes} {b : Bytes} (h : b ∈ mergedValues m sigs) :
    b = [] ∨ b ∈ sigs := by
  rcases List.mem_cons.mp h with hnil | h
  · exact .inl hnil
  rcases List.mem_append.mp h with h | h
  · exact .inr (List.mem_of_mem_take h)
  · exact .inl (List.eq_of_mem_replicate h)

/-- What is merged leaves its values on the stack. -/
theorem evalScript_merged (hscript : IsMultisig options m keys script)
    (hlocked : Locked script scriptPubKey redeem) {sigs1 sigs2 : Stack} (hredeem : Small redeem)
    (hsmall1 : Small sigs1) (hsmall2 : Small sigs2) :
    evalScript (baseSignatureChecker checker) SCRIPT_VERIFY_STRICTENC []
        ((mergedValues m (keySigs checker script keys (pooled sigs1 sigs2)) ++ redeem).flatMap pushData) =
      .ok (redeem ++ (mergedValues m (keySigs checker script keys (pooled sigs1 sigs2))).reverse) := by
  have hreverse : redeem.reverse = redeem := by cases hlocked <;> rfl
  have hlen : redeem.length ≤ 1 := by
    cases hlocked with
    | bare => exact Nat.zero_le _
    | redeemed _ => exact Nat.le_refl _
  have hle := hscript.le
  have hcount : (mergedValues m (keySigs checker script keys (pooled sigs1 sigs2)) ++ redeem).length ≤
      18 := by
    rw [List.length_append, length_mergedValues]
    omega
  have hsizes : Small (mergedValues m (keySigs checker script keys (pooled sigs1 sigs2)) ++ redeem) :=
    fun b hb => by
      rcases List.mem_append.mp hb with hb | hb
      · rcases mem_mergedValues hb with rfl | hb
        · exact Nat.zero_le _
        · rcases (mem_pooled.mp (SortedSet.mem_of_mem_leasts hb)).1 with hb | hb
          · exact hsmall1 b hb
          · exact hsmall2 b hb
      · exact hredeem b hb
  rw [evalScript_canPush hcount fun b hb => canPush_strictEnc (hsizes b hb), List.reverse_append,
    hreverse]

/-- **Combining.** Where no signature is valid for two keys, two `scriptSig`s for a multisig script, or
for its hash, are combined to one with a signature for each key that either has one for, in the order of
the keys and up to the `m` that are needed, and placeholders for the rest. Combining that with
what it was made of changes nothing, and the order does not matter. -/
theorem combineSignatures_merges (options : SolverOptions) (checker : Checker)
    (hscript : IsMultisig options m keys script) (hlocked : Locked script scriptPubKey redeem)
    (honce : ValidOnce checker script keys) {scriptSig1 scriptSig2 : CScript} {sigs1 sigs2 : Stack}
    (h1 : evalScript (baseSignatureChecker checker) SCRIPT_VERIFY_STRICTENC [] scriptSig1 =
      .ok (redeem ++ sigs1))
    (h2 : evalScript (baseSignatureChecker checker) SCRIPT_VERIFY_STRICTENC [] scriptSig2 =
      .ok (redeem ++ sigs2)) :
    ∃ sigs result, combineSignatures options checker scriptPubKey scriptSig1 scriptSig2 = some result ∧
      result = ([] :: (sigs ++ List.replicate (m - sigs.length) []) ++ redeem).flatMap pushData ∧
      sigs.length = min m (signedKeys checker script keys (sigs1 ++ sigs2)).length ∧
      List.Forall₂
        (fun sig key => sig ∈ sigs1 ++ sigs2 ∧ sig ≠ [] ∧ checker.checkSig sig key script = true)
        sigs ((signedKeys checker script keys (sigs1 ++ sigs2)).take m) ∧
      (m ≤ (signedKeys checker script keys (sigs1 ++ sigs2)).length →
        sigs.length = m ∧ result = ([] :: sigs ++ redeem).flatMap pushData) ∧
      (∀ scriptSig ∈ [scriptSig1, scriptSig2, result],
        combineSignatures options checker scriptPubKey result scriptSig = some result ∧
        combineSignatures options checker scriptPubKey scriptSig result = some result) ∧
      combineSignatures options checker scriptPubKey scriptSig2 scriptSig1 = some result := by
  obtain ⟨picked, hpicked⟩ : ∃ picked, picked = keySigs checker script keys (pooled sigs1 sigs2) :=
    ⟨_, rfl⟩
  have hvalid : List.Forall₂ _ picked _ := hpicked ▸ keySigs_valid checker script keys sigs1 sigs2
  have hlen := hvalid.length_eq
  have hcombined := combineSignatures_locked hscript hlocked honce h1 h2
  have hsmall1 := evalScript_small h1
  have hsmall2 := evalScript_small h2
  have hmerged : evalScript (baseSignatureChecker checker) SCRIPT_VERIFY_STRICTENC [] _ = _ :=
    evalScript_merged hscript hlocked (hsmall1.subset fun _ => List.mem_append_left _)
      (hsmall1.subset fun _ => List.mem_append_right _)
      (hsmall2.subset fun _ => List.mem_append_right _)
  have hsym : ∀ sigs sigs' : Stack, pooled sigs sigs' = pooled sigs' sigs := fun sigs sigs' =>
    pooled_congr fun _ _ => or_comm
  have hagain : ∀ {scriptSig : CScript} {sigs : Stack},
      evalScript (baseSignatureChecker checker) SCRIPT_VERIFY_STRICTENC [] scriptSig =
        .ok (redeem ++ sigs) →
      (∀ sig ∈ sigs, sig ≠ [] → sig ∈ sigs1 ∨ sig ∈ sigs2) →
      combineSignatures options checker scriptPubKey
          ((mergedValues m picked ++ redeem).flatMap pushData) scriptSig =
        some ((mergedValues m picked ++ redeem).flatMap pushData) ∧
      combineSignatures options checker scriptPubKey scriptSig
          ((mergedValues m picked ++ redeem).flatMap pushData) =
        some ((mergedValues m picked ++ redeem).flatMap pushData) := fun heval hsigs => by
    rw [hpicked, combineSignatures_locked hscript hlocked honce hmerged heval,
      combineSignatures_locked hscript hlocked honce heval hmerged,
      hsym _ (mergedValues _ _).reverse, mergedValues_again hsigs]
    exact ⟨rfl, rfl⟩
  refine ⟨picked.take m, (mergedValues m picked ++ redeem).flatMap pushData, ?_, ?_, ?_, ?_,
    fun hcomplete => ⟨?_, ?_⟩, fun scriptSig hscriptSig => ?_, ?_⟩
  · rw [hpicked]
    exact hcombined
  · have hrest : m - (picked.take m).length = m - picked.length := by
      rw [List.length_take]
      omega
    rw [mergedValues, hrest]
  · rw [List.length_take, hlen]
  · exact List.forall₂_take m hvalid
  · rw [List.length_take, hlen]
    omega
  · rw [mergedValues, hlen, Nat.sub_eq_zero_of_le hcomplete, List.replicate_zero, List.append_nil]
  · rcases List.mem_cons.mp hscriptSig with rfl | hscriptSig
    · exact hagain h1 fun sig hsig _ => .inl hsig
    rcases List.mem_cons.mp hscriptSig with rfl | hscriptSig
    · exact hagain h2 fun sig hsig _ => .inr hsig
    rw [List.mem_singleton.mp hscriptSig]
    refine hagain (hpicked ▸ hmerged) fun sig hsig hne => ?_
    rcases mem_mergedValues (List.mem_reverse.mp hsig) with hnil | hmem
    · exact absurd hnil hne
    · rw [hpicked] at hmem
      exact (mem_pooled.mp (SortedSet.mem_of_mem_leasts hmem)).1
  · rw [combineSignatures_locked hscript hlocked honce h2 h1, hsym, ← hpicked]

end

/-! ## Two of three -/

/-- A checker for which a key signs by itself. -/
def selfChecker : Checker :=
  { sampleChecker with checkSig := fun vchSig vchPubKey _ => vchSig == vchPubKey }

def threeKeys : List Bytes := [1, 2, 3].map fun b => 0x02 :: List.replicate 32 b

def twoOfThree : CScript := getScriptForMultisig 2 threeKeys

theorem isMultisig_twoOfThree : IsMultisig sampleOptions 2 threeKeys twoOfThree :=
  ⟨by decide, solver_getScriptForMultisig sampleOptions (by decide) (by decide) (by decide) (by
    unfold IsValidPubKey
    decide)⟩

theorem validOnce_selfChecker (script : CScript) (keys : List Bytes) :
    ValidOnce selfChecker script keys := fun sig key _ key' _ h h' =>
  (beq_iff_eq.mp (show (sig == key) = true from h)).symm.trans
    (beq_iff_eq.mp (show (sig == key') = true from h'))

theorem evalScript_twoOfThree {values : List Bytes} (h : values ⊆ [] :: threeKeys)
    (hcount : values.length ≤ 17) :
    evalScript (baseSignatureChecker selfChecker) SCRIPT_VERIFY_STRICTENC []
      ((values ++ [twoOfThree]).flatMap pushData) = .ok ([twoOfThree] ++ values.reverse) := by
  have hsizes : ∀ b ∈ [] :: threeKeys, b.length ≤ MAX_SCRIPT_ELEMENT_SIZE := by decide
  have hscript : twoOfThree.length ≤ MAX_SCRIPT_ELEMENT_SIZE := by decide
  rw [evalScript_canPush (by rw [List.length_append, List.length_singleton]; omega) fun b hb => ?_,
    List.reverse_append]
  · rfl
  · rcases List.mem_append.mp hb with hb | hb
    · exact canPush_strictEnc (hsizes b (h hb))
    · rw [List.mem_singleton.mp hb]
      exact canPush_strictEnc hscript

/-- Two co-signers of a script hash, one of whom has a placeholder. -/
theorem combineSignatures_merges_twoOfThree :
    ∃ sigs, combineSignatures sampleOptions selfChecker
        (getScriptForDestination (.scriptID (prefixHash twoOfThree)))
        (([[], 0x02 :: List.replicate 32 3, []] ++ [twoOfThree]).flatMap pushData)
        (([[], 0x02 :: List.replicate 32 1] ++ [twoOfThree]).flatMap pushData) =
      some (([] :: sigs ++ [twoOfThree]).flatMap pushData) ∧ sigs.length = 2 := by
  have h1 := evalScript_twoOfThree
    (show [[], 0x02 :: List.replicate 32 3, []] ⊆ [] :: threeKeys by decide) (by decide)
  have h2 := evalScript_twoOfThree
    (show [[], 0x02 :: List.replicate 32 1] ⊆ [] :: threeKeys by decide) (by decide)
  obtain ⟨sigs, result, hcombined, -, -, -, hcomplete, -⟩ := combineSignatures_merges sampleOptions
    selfChecker isMultisig_twoOfThree (.redeemed (isPayToScriptHash_scriptID (prefixHash twoOfThree)))
    (validOnce_selfChecker _ _) h1 h2
  obtain ⟨hlen, rfl⟩ := hcomplete (by decide)
  exact ⟨sigs, hcombined, hlen⟩

end GC
