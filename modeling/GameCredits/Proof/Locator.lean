import GameCredits.Proof.Chain

/-!
# Locators

The entries that a locator lists (`Walk`): single steps down for ten blocks, then steps that double. For
every height there is a first entry that is not above it (`Walk.cover`), the entry itself within the first
eleven blocks and at most twice as far down below them. What `FindForkInGlobalIndex` returns is the first
listed entry that is not above the fork (`findForkInGlobalIndex_locator`).
-/

namespace GC

open Framework

variable {node : Ptr → CBlockIndex} {known : List Ptr} {c : CChain} {p q t : Ptr}

/-- The entries that a locator lists from an entry on, with the number of those before it and the
step. -/
inductive Walk (node : Ptr → CBlockIndex) : (count nStep : Nat) → Ptr → List Ptr → Prop
  | genesis {count nStep p} (h : heightOf node p = 0) : Walk node count nStep p [p]
  | step {count nStep p q entries} (h : 0 < heightOf node p)
      (hq : up (parentOf node) (heightOf node p - (heightOf node p - nStep)) p = some q)
      (W : Walk node (count + 1) (if 10 < count + 1 then nStep * 2 else nStep) q entries) :
      Walk node count nStep p (p :: entries)

/-! ## GetLocator -/

/-- Both ways to go down lead to the ancestor. -/
theorem CChain.Branch.next_eq {tip : Option Ptr} (B : c.Branch node tip)
    (T : SkipTree node (· ∈ known)) (htip : ∀ t, tip = some t → t ∈ known) (hp : p ∈ known) {h : Nat}
    (hle : h ≤ heightOf node p) :
    (if c.contains node p then some (c.get h) else getAncestor node p h) =
      some (up (parentOf node) (heightOf node p - h) p) := by
  split_ifs with hcont
  · cases tip with
    | none =>
      rw [CChain.contains, CChain.get, if_pos (by rw [show c.vChain = [] from B]; exact .inr (by simp))]
        at hcont
      cases hcont
    | some t =>
      have ht := htip t rfl
      have hanc := (B.contains_iff T ht).mp hcont
      have hpt := T.graded.height_le hanc ht
      have hsum : heightOf node t - h =
          (heightOf node t - heightOf node p) + (heightOf node p - h) := by omega
      rw [B.get_eq (hle.trans hpt), hsum, up_add, (T.graded.anc_iff_up ht).mp hanc, Option.bind_some]
  · exact T.getAncestor hp hle

theorem CChain.locatorLoop_spec {tip : Option Ptr} (B : c.Branch node tip)
    (T : SkipTree node (· ∈ known)) (htip : ∀ t, tip = some t → t ∈ known) {fuel : Nat}
    (nStep : Nat) (vHave : List UInt256) (hp : p ∈ known) (hpos : 0 < nStep) (hfuel : heightOf node p < fuel) :
    ∃ entries, c.locatorLoop node fuel nStep vHave (some p) =
        some (vHave ++ entries.map fun e => (node e).phashBlock) ∧
      Walk node vHave.length nStep p entries := by
  induction fuel generalizing p nStep vHave with
  | zero => omega
  | succ fuel ih =>
    have hnode : (node p).nHeight = heightOf node p := rfl
    rw [CChain.locatorLoop]
    dsimp only
    rw [hnode]
    by_cases hzero : heightOf node p = 0
    · rw [if_pos hzero]
      exact ⟨[p], rfl, .genesis hzero⟩
    · have hmax : (max ((heightOf node p : Int) - nStep) 0) = (heightOf node p - nStep : Nat) := by omega
      obtain ⟨q, hq, hqp, hqh⟩ :=
        T.graded.up_spec (heightOf node p - (heightOf node p - nStep)) hp (by omega)
      have hqk := T.graded.anc_mem hqp hp
      rw [if_neg hzero, hmax, B.next_eq T htip hp (by omega), hq, Option.bind_some]
      have hlen : (vHave ++ [(node p).phashBlock]).length = vHave.length + 1 := by
        rw [List.length_append]
        rfl
      rw [hlen]
      obtain ⟨entries, hrun, W⟩ := ih (if 10 < vHave.length + 1 then nStep * 2 else nStep)
        (vHave ++ [(node p).phashBlock]) hqk (by split_ifs <;> omega) (by omega)
      rw [hlen] at W
      refine ⟨p :: entries, ?_, .step (by omega) hq W⟩
      rw [hrun, List.append_assoc]
      rfl

namespace Walk

variable {count nStep : Nat} {entries : List Ptr}

theorem head (W : Walk node count nStep p entries) : ∃ rest, entries = p :: rest := by
  cases W with
  | genesis => exact ⟨[], rfl⟩
  | step => exact ⟨_, rfl⟩

theorem last (W : Walk node count nStep p entries) :
    ∃ g, entries.getLast? = some g ∧ heightOf node g = 0 := by
  induction W with
  | genesis h => exact ⟨_, rfl, h⟩
  | step _ _ W ih =>
    obtain ⟨g, hg, hgh⟩ := ih
    obtain ⟨rest, rfl⟩ := W.head
    exact ⟨g, by rwa [List.getLast?_cons_cons], hgh⟩

theorem anc (W : Walk node count nStep p entries) (T : SkipTree node (· ∈ known)) (hp : p ∈ known) :
    ∀ e ∈ entries, Anc (parentOf node) e p := by
  induction W with
  | genesis => exact fun e he => List.mem_singleton.mp he ▸ .refl
  | step _ hq _ ih =>
    obtain ⟨hqp, -⟩ := T.graded.up_anc hp hq
    intro e he
    rcases List.mem_cons.mp he with rfl | he
    · exact .refl
    · exact (ih (T.graded.anc_mem hqp hp) e he).trans hqp

theorem descending (W : Walk node count nStep p entries) (T : SkipTree node (· ∈ known))
    (hp : p ∈ known) (hpos : 0 < nStep) :
    entries.Pairwise fun a b => heightOf node b < heightOf node a := by
  induction W with
  | genesis => exact List.pairwise_singleton _ _
  | step h hq W ih =>
    obtain ⟨hqp, hqh⟩ := T.graded.up_anc hp hq
    have hqk := T.graded.anc_mem hqp hp
    refine List.pairwise_cons.mpr ⟨fun e he => ?_, ih hqk (by split_ifs <;> omega)⟩
    have := T.graded.height_le (W.anc T hqk e he) hqk
    omega

/-- For each height there is a first entry that is not above it. Within eleven blocks from the top it is
at this height; elsewhere it is at most twice as far from the top. The walk is in its single steps, in
its doubling ones, or at its end. -/
theorem cover (W : Walk node count nStep p entries) (T : SkipTree node (· ∈ known)) (hp : p ∈ known)
    {H : Nat} (htop : heightOf node p ≤ H)
    (hphase : count ≤ 10 ∧ nStep = 1 ∧ H = heightOf node p + count ∨
      11 ≤ count ∧ 2 ≤ nStep ∧ H = heightOf node p + 9 + nStep ∨ heightOf node p = 0)
    {y : Nat} (hy : y ≤ heightOf node p) :
    ∃ pre q post, entries = pre ++ q :: post ∧ (∀ e ∈ pre, y < heightOf node e) ∧
      heightOf node q ≤ y ∧ (H ≤ y + 11 → heightOf node q = y) ∧ 2 * y ≤ H + heightOf node q := by
  induction W with
  | @genesis _ _ p h =>
    exact ⟨[], p, [], rfl, fun e he => (by cases he), by omega, fun _ => by omega, by omega⟩
  | @step count nStep p q entries h hq W ih =>
    obtain ⟨hqp, hqh⟩ := T.graded.up_anc hp hq
    have hqk := T.graded.anc_mem hqp hp
    rcases Nat.eq_or_lt_of_le hy with rfl | hlt
    · exact ⟨[], p, entries, rfl, fun e he => (by cases he), Nat.le_refl _, fun _ => rfl, by omega⟩
    rcases Nat.lt_or_ge (heightOf node q) y with hjump | hge
    · -- the step jumps over the height, so the walk is in its doubling steps
      obtain ⟨rest, rfl⟩ := W.head
      refine ⟨[p], q, rest, rfl, fun e he => ?_, hjump.le, fun _ => by omega, by omega⟩
      rw [List.mem_singleton.mp he]
      exact hlt
    · have hphase' : count + 1 ≤ 10 ∧ (if 10 < count + 1 then nStep * 2 else nStep) = 1 ∧
            H = heightOf node q + (count + 1) ∨
          11 ≤ count + 1 ∧ 2 ≤ (if 10 < count + 1 then nStep * 2 else nStep) ∧
            H = heightOf node q + 9 + (if 10 < count + 1 then nStep * 2 else nStep) ∨
          heightOf node q = 0 := by
        split_ifs <;> omega
      obtain ⟨pre, q', post, rfl, hpre, hq', hexact, htwice⟩ := ih hqk (by omega) hphase' hge
      refine ⟨p :: pre, q', post, rfl, fun e he => ?_, hq', hexact, htwice⟩
      rcases List.mem_cons.mp he with rfl | he
      · exact hlt
      · exact hpre e he

end Walk

theorem CChain.getLocator_walk {tip : Option Ptr} (B : c.Branch node tip)
    (T : SkipTree node (· ∈ known)) (htip : ∀ t, tip = some t → t ∈ known) (hp : p ∈ known) :
    ∃ entries, c.getLocator node (some p) = some (entries.map fun e => (node e).phashBlock) ∧
      Walk node 0 1 p entries := by
  obtain ⟨entries, hrun, W⟩ :=
    CChain.locatorLoop_spec B T htip 1 [] hp Nat.one_pos (Nat.lt_succ_self (heightOf node p))
  exact ⟨entries, hrun, W⟩

/-! ## FindForkInGlobalIndex -/

/-- The entries in the index have different hashes. -/
def DistinctHashes (node : Ptr → CBlockIndex) (known : List Ptr) : Prop :=
  ∀ p ∈ known, ∀ q ∈ known, (node p).phashBlock = (node q).phashBlock → p = q

theorem DistinctHashes.find (hd : DistinctHashes node known) (hp : p ∈ known) :
    known.find? (fun q => (node q).phashBlock == (node p).phashBlock) = some p := by
  have hsome : (known.find? fun q => (node q).phashBlock == (node p).phashBlock).isSome :=
    List.find?_isSome.mpr ⟨p, hp, beq_self_eq_true _⟩
  obtain ⟨r, hr⟩ := Option.isSome_iff_exists.mp hsome
  have hhash := List.find?_some hr
  rw [beq_iff_eq] at hhash
  rw [hr, hd r (List.mem_of_find?_eq_some hr) p hp hhash]

/-- The first listed entry on the chain is returned. -/
theorem CChain.findForkInGlobalIndex_append (hd : DistinctHashes node known) {pre post : List Ptr}
    (hpre : ∀ e ∈ pre, e ∈ known ∧ c.contains node e = false) (hq : q ∈ known)
    (hcont : c.contains node q = true) :
    c.findForkInGlobalIndex node known ((pre ++ q :: post).map fun e => (node e).phashBlock) =
      some q := by
  induction pre with
  | nil => simp only [List.nil_append, List.map_cons, findForkInGlobalIndex, hd.find hq, hcont, if_true]
  | cons e pre ih =>
    obtain ⟨he, hnot⟩ := hpre e List.mem_cons_self
    simp only [List.cons_append, List.map_cons, findForkInGlobalIndex, hd.find he, hnot,
      Bool.false_eq_true, if_false]
    exact ih fun e' he' => hpre e' (List.mem_cons_of_mem _ he')

/-- In an empty chain nothing is found. -/
theorem CChain.findForkInGlobalIndex_empty (B : c.Branch node none) (vHave : List UInt256) :
    c.findForkInGlobalIndex node known vHave = none := by
  have hempty : c.vChain = [] := B
  have hnot : ∀ p, c.contains node p = false := fun p => by
    rw [CChain.contains, CChain.get, if_pos (by rw [hempty]; exact .inr (by simp))]
    rfl
  induction vHave with
  | nil => rw [findForkInGlobalIndex, CChain.genesis, hempty]; rfl
  | cons hash vHave ih =>
    rw [findForkInGlobalIndex]
    cases known.find? fun p => (node p).phashBlock == hash with
    | none => exact ih
    | some p =>
      dsimp only
      rw [hnot p]
      exact ih

/-- A locator meets a chain: it lists ancestors of an entry, from the entry down to the genesis block,
and what is found is the highest of them on the chain. That is never above the fork, is the fork where
that is at most eleven blocks down, and is at most twice as far down elsewhere. -/
theorem findForkInGlobalIndex_locator (T : BlockTree node known) (hd : DistinctHashes node known)
    {callsA callsB : List (Option Ptr)} {a b : CChain}
    (hcallsA : ∀ p, some p ∈ callsA → p ∈ known) (ha : CChain.setTips node ⟨[]⟩ callsA = some a)
    (hcallsB : ∀ p, some p ∈ callsB → p ∈ known) (hb : CChain.setTips node ⟨[]⟩ callsB = some b)
    (hp : p ∈ known) :
    ∃ entries : List Ptr, a.getLocator node (some p) = some (entries.map fun e => (node e).phashBlock) ∧
      (∀ e ∈ entries, Anc (parentOf node) e p) ∧
      entries.Pairwise (fun e e' => (node e').nHeight < (node e).nHeight) ∧
      entries.head? = some p ∧ (∃ g, entries.getLast? = some g ∧ (node g).nHeight = 0) ∧
      match b.tip with
      | none => b.findForkInGlobalIndex node known (entries.map fun e => (node e).phashBlock) = none
      | some t => ∃ q f,
        b.findForkInGlobalIndex node known (entries.map fun e => (node e).phashBlock) = some q ∧
        q ∈ entries ∧ b.contains node q = true ∧
        (∀ e ∈ entries, b.contains node e = true → (node e).nHeight ≤ (node q).nHeight) ∧
        b.findFork node p = some (some f) ∧ LastCommon node p t f ∧ Anc (parentOf node) q f ∧
        ((node p).nHeight - (node f).nHeight ≤ 11 → q = f) ∧
        (node p).nHeight - (node q).nHeight ≤ 2 * ((node p).nHeight - (node f).nHeight) := by
  have S := T.skipTree
  have known_last : ∀ {calls : List (Option Ptr)}, (∀ p, some p ∈ calls → p ∈ known) →
      ∀ t, calls.getLast?.getD none = some t → t ∈ known := fun {calls} hcalls t ht => by
    cases hl : calls.getLast? with
    | none => rw [hl] at ht; cases ht
    | some tip =>
      rw [hl] at ht
      exact hcalls t (List.mem_of_getLast? (hl.trans (congrArg some ht)))
  obtain ⟨a', ha', BA⟩ := CChain.setTips_branch S callsA CChain.branch_empty hcallsA
  obtain rfl := Option.some.inj (ha.symm.trans ha')
  obtain ⟨b', hb', BB⟩ := CChain.setTips_branch S callsB CChain.branch_empty hcallsB
  obtain rfl := Option.some.inj (hb.symm.trans hb')
  have htipB := known_last hcallsB
  obtain ⟨entries, hloc, W⟩ := CChain.getLocator_walk BA S (known_last hcallsA) hp
  have hanc := W.anc S hp
  refine ⟨entries, hloc, hanc, W.descending S hp Nat.one_pos, ?_, W.last, ?_⟩
  · obtain ⟨rest, rfl⟩ := W.head
    rfl
  rw [BB.tip_eq]
  generalize callsB.getLast?.getD none = tip at BB htipB
  cases tip with
  | none => exact CChain.findForkInGlobalIndex_empty BB _
  | some t =>
    have ht := htipB t rfl
    obtain ⟨f, hf, hfp, hft, hmax⟩ := CChain.findFork_common T ht BB hp
    have hfh := S.graded.height_le hfp hp
    -- an ancestor of the entry is on the chain if and only if it is not above the fork
    have hon : ∀ e ∈ entries, b.contains node e = true ↔ heightOf node e ≤ heightOf node f := by
      intro e he
      rw [BB.contains_iff S ht]
      constructor
      · exact fun het => S.graded.height_le (hmax e (hanc e he) het) (S.graded.anc_mem hfp hp)
      · exact fun hle => (S.graded.comparable (hanc e he) hfp hp hle).trans hft
    obtain ⟨pre, q, post, rfl, hpre, hqf, hexact, htwice⟩ := W.cover S hp (H := heightOf node p)
      (Nat.le_refl _) (.inl ⟨Nat.zero_le _, rfl, rfl⟩) hfh
    have hq : q ∈ pre ++ q :: post := List.mem_append_right _ List.mem_cons_self
    have hqcont := (hon q hq).mpr hqf
    have hqanc := S.graded.comparable (hanc q hq) hfp hp hqf
    have hnot : ∀ e ∈ pre, e ∈ known ∧ b.contains node e = false := by
      intro e he
      have hmem := List.mem_append_left (q :: post) he
      refine ⟨S.graded.anc_mem (hanc e hmem) hp, Bool.eq_false_iff.mpr fun hcont => ?_⟩
      have := (hon e hmem).mp hcont
      have := hpre e he
      omega
    have hdesc := W.descending S hp Nat.one_pos
    refine ⟨q, f, ?_, hq, hqcont, ?_, hf, ⟨hfp, hft, hmax⟩, hqanc, ?_, ?_⟩
    · exact CChain.findForkInGlobalIndex_append hd hnot (S.graded.anc_mem (hanc q hq) hp) hqcont
    · intro e he hcont
      rcases List.mem_append.mp he with hepre | hepost
      · rw [(hnot e hepre).2] at hcont
        cases hcont
      · rcases List.mem_cons.mp hepost with rfl | hepost
        · exact Nat.le_refl _
        · exact ((List.pairwise_cons.mp (List.pairwise_append.mp hdesc).2.1).1 e hepost).le
    · intro hnear
      have hnear' : heightOf node p - heightOf node f ≤ 11 := hnear
      exact S.graded.eq_of_height hqanc (S.graded.anc_mem hfp hp) (hexact (by omega)).ge
    · show heightOf node p - heightOf node q ≤ 2 * (heightOf node p - heightOf node f)
      omega

theorem branchTree_locator :
    ∃ entries : List Ptr, CChain.getLocator branchNode
        ⟨[some 0, some 1, some 4, some 5, some 6, some 7, some 8]⟩ (some 8) =
          some (entries.map fun e => (branchNode e).phashBlock) ∧
      ∃ f, CChain.findForkInGlobalIndex branchNode [8, 7, 6, 5, 4, 3, 2, 1, 0]
          ⟨[some 0, some 1, some 2, some 3]⟩ (entries.map fun e => (branchNode e).phashBlock) = some f ∧
        LastCommon branchNode 8 3 f := by
  have hdistinct : DistinctHashes branchNode [8, 7, 6, 5, 4, 3, 2, 1, 0] := by
    unfold DistinctHashes
    decide +kernel
  have hA : CChain.setTips branchNode ⟨[]⟩ [some 3, some 8] =
      some ⟨[some 0, some 1, some 4, some 5, some 6, some 7, some 8]⟩ := rfl
  have hB : CChain.setTips branchNode ⟨[]⟩ [some 8, some 3] =
      some ⟨[some 0, some 1, some 2, some 3]⟩ := rfl
  obtain ⟨entries, hentries, -, -, -, -, q, f, hfind, -, -, -, -, hcommon, -, hnear, -⟩ :=
    findForkInGlobalIndex_locator branchTree hdistinct (by simp) hA (by simp) hB (p := 8) (by decide)
  have hheight : (branchNode 8).nHeight = 6 := rfl
  obtain rfl := hnear (by omega)
  exact ⟨entries, hentries, q, hfind, hcommon⟩

end GC
