import GameCredits.Framework.Components
import GameCredits.Model.Groupings

/-!
# Groups of addresses

`GetAddressGroupings` first lists the sets of addresses that belong together (`mem_groupings`). It then
merges those that meet, through pointers in `setmap`; these always point to the allocated set that has
the address, and the allocated sets are the components of what has been listed so far (`Merging.Ok`,
`Merging.add_ok`). So the result is the partition into components, whatever the order of the loops and
the addresses of the sets (`getAddressGroupings_components`).
-/

namespace GC.Groupings

open Framework
open Framework.Assoc (Map)

variable {w : CWallet}

/-! ## What belongs together -/

/-- `a` is the address of an own input. -/
def OwnInput (w : CWallet) (tx : CTransaction) (a : Destination) : Prop :=
  ∃ txin ∈ tx.vin, isMineIn w txin ≠ 0 ∧ (prevOut w txin).bind (address w) = some a

/-- `a` is the address of a change output, and some input is the wallet's own. -/
def ChangeOutput (w : CWallet) (tx : CTransaction) (a : Destination) : Prop :=
  (∃ txin ∈ tx.vin, isMineIn w txin ≠ 0) ∧
    ∃ txout ∈ tx.vout, w.isChange txout = true ∧ address w txout = some a

/-- `a` is the address of an own output. -/
def OwnOutput (w : CWallet) (tx : CTransaction) (a : Destination) : Prop :=
  ∃ txout ∈ tx.vout, w.isMineOut txout ≠ 0 ∧ address w txout = some a

/-- `a` is an own input, change or an own output of a transaction in the wallet. -/
def Occurs (w : CWallet) (a : Destination) : Prop :=
  ∃ hash wtx, w.mapWallet hash = some wtx ∧
    (OwnInput w wtx.toCTransaction a ∨ ChangeOutput w wtx.toCTransaction a ∨
      OwnOutput w wtx.toCTransaction a)

/-- A transaction in the wallet has both addresses as own inputs, or one as an own input and the other as
change. -/
def PutTogether (w : CWallet) (a b : Destination) : Prop :=
  ∃ hash wtx, w.mapWallet hash = some wtx ∧
    (OwnInput w wtx.toCTransaction a ∧
        (OwnInput w wtx.toCTransaction b ∨ ChangeOutput w wtx.toCTransaction b) ∨
      ChangeOutput w wtx.toCTransaction a ∧ OwnInput w wtx.toCTransaction b)

theorem OwnInput.mine {tx : CTransaction} {a : Destination} (h : OwnInput w tx a) :
    ∃ txin ∈ tx.vin, isMineIn w txin ≠ 0 :=
  let ⟨txin, hmem, hmine, _⟩ := h
  ⟨txin, hmem, hmine⟩

theorem isMineOut_of_isChange {txout : CTxOut} (h : w.isChange txout = true) :
    w.isMineOut txout ≠ 0 := by
  intro hzero
  rw [CWallet.isChange, if_neg (not_not.mpr hzero)] at h
  exact absurd h Bool.false_ne_true

/-- Change is the wallet's own. -/
theorem ChangeOutput.own {tx : CTransaction} {a : Destination} (h : ChangeOutput w tx a) :
    OwnOutput w tx a :=
  let ⟨_, txout, hmem, hchange, ha⟩ := h
  ⟨txout, hmem, isMineOut_of_isChange hchange, ha⟩

theorem groupInputs_eq (vin : List CTxIn) (grouping : Grouping) (anyMine : Bool) :
    (∀ a, a ∈ (groupInputs w vin grouping anyMine).1 ↔ a ∈ grouping ∨
      ∃ txin ∈ vin, isMineIn w txin ≠ 0 ∧ (prevOut w txin).bind (address w) = some a) ∧
    ((groupInputs w vin grouping anyMine).2 = true ↔ anyMine = true ∨
      ∃ a, ∃ txin ∈ vin, isMineIn w txin ≠ 0 ∧ (prevOut w txin).bind (address w) = some a) := by
  induction vin generalizing grouping anyMine with
  | nil => simp [groupInputs]
  | cons txin vin ih =>
    rw [groupInputs]
    split_ifs with hmine
    · simp only [ih, List.exists_mem_cons_iff, hmine, ne_eq, not_true_eq_false, false_and, false_or,
        implies_true, true_and]
    · cases haddress : (prevOut w txin).bind (address w) with
      | none =>
        simp only [ih, List.exists_mem_cons_iff, haddress, reduceCtorEq, and_false, false_or,
          implies_true, true_and]
      | some a =>
        simp only [ih, List.exists_mem_cons_iff, haddress, Finset.mem_insert, Option.some.injEq, ne_eq,
          hmine, not_false_eq_true, true_and, true_or, true_iff]
        exact ⟨fun b => by rw [eq_comm (a := b)]; tauto, .inr ⟨a, .inl rfl⟩⟩

theorem mem_groupChange (vout : List CTxOut) (grouping : Grouping) (a : Destination) :
    a ∈ groupChange w vout grouping ↔
      a ∈ grouping ∨ ∃ txout ∈ vout, w.isChange txout = true ∧ address w txout = some a := by
  induction vout generalizing grouping with
  | nil => simp [groupChange]
  | cons txout vout ih =>
    rw [groupChange]
    split_ifs with hchange
    · cases haddress : address w txout with
      | none =>
        simp only [ih, List.exists_mem_cons_iff, haddress, reduceCtorEq, and_false, false_or]
      | some b =>
        simp only [ih, List.exists_mem_cons_iff, haddress, Finset.mem_insert, Option.some.injEq, hchange,
          true_and]
        rw [eq_comm (a := a)]
        tauto
    · simp only [ih, List.exists_mem_cons_iff, hchange, Bool.false_eq_true, false_and, false_or]

theorem mem_groupLone (vout : List CTxOut) (gs : Finset Grouping) (g : Grouping) :
    g ∈ groupLone w vout gs ↔
      g ∈ gs ∨ ∃ a, g = {a} ∧ ∃ txout ∈ vout, w.isMineOut txout ≠ 0 ∧ address w txout = some a := by
  induction vout generalizing gs with
  | nil => simp [groupLone]
  | cons txout vout ih =>
    rw [groupLone]
    split_ifs with hmine
    · cases haddress : address w txout with
      | none =>
        simp only [ih, List.exists_mem_cons_iff, haddress, reduceCtorEq, and_false, false_or]
      | some b =>
        simp only [ih, List.exists_mem_cons_iff, haddress, Finset.mem_insert, Option.some.injEq, ne_eq,
          hmine, not_false_eq_true, true_and, and_or_left, exists_or, exists_eq_right']
        tauto
    · simp only [ih, List.exists_mem_cons_iff, hmine, false_and, false_or]

theorem mem_groupTx (tx : CTransaction) (a : Destination) :
    a ∈ groupTx w tx ↔ OwnInput w tx a ∨ (∃ b, OwnInput w tx b) ∧ ChangeOutput w tx a := by
  obtain ⟨hmem, hany⟩ := groupInputs_eq (w := w) tx.vin ∅ false
  simp only [Finset.notMem_empty, Bool.false_eq_true, false_or] at hmem hany
  have hgroup : groupTx w tx =
      if (groupInputs w tx.vin ∅ false).2 then groupChange w tx.vout (groupInputs w tx.vin ∅ false).1
      else (groupInputs w tx.vin ∅ false).1 := rfl
  rw [hgroup]
  split_ifs with h
  · obtain ⟨b, hb⟩ : ∃ b, OwnInput w tx b := hany.mp h
    rw [mem_groupChange, hmem]
    exact or_congr Iff.rfl ⟨fun hchange => ⟨⟨b, hb⟩, hb.mine, hchange⟩, fun hchange => hchange.2.2⟩
  · rw [hmem]
    exact ⟨.inl, fun ha => ha.resolve_right fun ⟨hb, _⟩ => h (hany.mpr hb)⟩

/-- What a transaction puts into one set. -/
def TxGroup (w : CWallet) (tx : CTransaction) (g : Grouping) : Prop :=
  g = groupTx w tx ∧ g.Nonempty ∨ ∃ a, g = {a} ∧ OwnOutput w tx a

theorem mem_groupWalletTx (tx : CTransaction) (gs : Finset Grouping) (g : Grouping) :
    g ∈ groupWalletTx w tx gs ↔ g ∈ gs ∨ TxGroup w tx g := by
  have hvin : (groupTx w tx).Nonempty → 0 < tx.vin.length := by
    rintro ⟨a, ha⟩
    rcases (mem_groupTx tx a).mp ha with h | ⟨-, h, -⟩
    · obtain ⟨txin, hmem, -⟩ := h
      exact List.length_pos_of_mem hmem
    · obtain ⟨txin, hmem, -⟩ := h
      exact List.length_pos_of_mem hmem
  rw [groupWalletTx, mem_groupLone, TxGroup, ← or_assoc]
  refine or_congr ?_ Iff.rfl
  split_ifs with h
  · rw [Finset.mem_insert, or_comm]
    refine or_congr Iff.rfl ⟨fun hg => ⟨hg, ?_⟩, And.left⟩
    rw [hg]
    exact Finset.card_pos.mp h.2
  · refine ⟨.inl, fun hg => hg.resolve_right ?_⟩
    rintro ⟨rfl, hne⟩
    exact h ⟨hvin hne, Finset.card_pos.mpr hne⟩

theorem mem_groupings (entries : List (UInt256 × CWalletTx)) (g : Grouping) :
    g ∈ groupings w entries ↔ ∃ e ∈ entries, TxGroup w e.2.toCTransaction g := by
  have hfold : ∀ (entries : List (UInt256 × CWalletTx)) (gs : Finset Grouping),
      g ∈ entries.foldl (fun gs e => groupWalletTx w e.2.toCTransaction gs) gs ↔
        g ∈ gs ∨ ∃ e ∈ entries, TxGroup w e.2.toCTransaction g := by
    intro entries
    induction entries with
    | nil => simp
    | cons e entries ih =>
      intro gs
      rw [List.foldl_cons, ih, mem_groupWalletTx, List.exists_mem_cons_iff, or_assoc]
  rw [groupings, hfold]
  exact or_iff_right (Finset.notMem_empty g)

theorem TxGroup.nonempty {tx : CTransaction} {g : Grouping} (h : TxGroup w tx g) : g.Nonempty := by
  rcases h with ⟨-, h⟩ | ⟨a, rfl, -⟩
  · exact h
  · exact Finset.singleton_nonempty a

section

variable (env : Env w)

theorem mem_groupings_entries {g : Grouping} :
    g ∈ groupings w env.entries ↔
      ∃ hash wtx, w.mapWallet hash = some wtx ∧ TxGroup w wtx.toCTransaction g := by
  rw [mem_groupings]
  constructor
  · rintro ⟨⟨hash, wtx⟩, hmem, hg⟩
    exact ⟨hash, wtx, (env.mem_entries hash wtx).mp hmem, hg⟩
  · rintro ⟨hash, wtx, hwtx, hg⟩
    exact ⟨(hash, wtx), (env.mem_entries hash wtx).mpr hwtx, hg⟩

theorem covered_iff (a : Destination) :
    (∃ g ∈ (groupings w env.entries : Set Grouping), a ∈ g) ↔ Occurs w a := by
  constructor
  · rintro ⟨g, hg, ha⟩
    obtain ⟨hash, wtx, hwtx, ⟨rfl, -⟩ | ⟨b, rfl, hb⟩⟩ := (mem_groupings_entries env).mp hg
    · rcases (mem_groupTx _ a).mp ha with h | ⟨-, h⟩
      · exact ⟨hash, wtx, hwtx, .inl h⟩
      · exact ⟨hash, wtx, hwtx, .inr (.inl h)⟩
    · rw [Finset.mem_singleton.mp ha]
      exact ⟨hash, wtx, hwtx, .inr (.inr hb)⟩
  · rintro ⟨hash, wtx, hwtx, h⟩
    have hlone : OwnOutput w wtx.toCTransaction a →
        ∃ g ∈ (groupings w env.entries : Set Grouping), a ∈ g := fun h =>
      ⟨{a}, (mem_groupings_entries env).mpr ⟨hash, wtx, hwtx, .inr ⟨a, rfl, h⟩⟩,
        Finset.mem_singleton_self a⟩
    rcases h with h | h | h
    · have ha := (mem_groupTx _ a).mpr (.inl h)
      exact ⟨_, (mem_groupings_entries env).mpr ⟨hash, wtx, hwtx, .inl ⟨rfl, a, ha⟩⟩, ha⟩
    · exact hlone h.own
    · exact hlone h

/-- The chains of the sets that are listed are the chains of transactions. -/
theorem linked_iff (a b : Destination) :
    Linked (groupings w env.entries : Set Grouping) a b ↔ Relation.ReflTransGen (PutTogether w) a b := by
  constructor
  · refine fun h => Relation.reflTransGen_closed ?_ a b h
    rintro a b ⟨g, hg, ha, hb⟩
    obtain ⟨hash, wtx, hwtx, ⟨rfl, -⟩ | ⟨c, rfl, -⟩⟩ := (mem_groupings_entries env).mp hg
    · rcases (mem_groupTx _ a).mp ha with ha | ⟨⟨c, hc⟩, ha⟩ <;>
        rcases (mem_groupTx _ b).mp hb with hb | ⟨-, hb⟩
      · exact .single ⟨hash, wtx, hwtx, .inl ⟨ha, .inl hb⟩⟩
      · exact .single ⟨hash, wtx, hwtx, .inl ⟨ha, .inr hb⟩⟩
      · exact .single ⟨hash, wtx, hwtx, .inr ⟨ha, hb⟩⟩
      -- two change outputs are linked through an input
      · exact .tail (.single ⟨hash, wtx, hwtx, .inr ⟨ha, hc⟩⟩) ⟨hash, wtx, hwtx, .inl ⟨hc, .inr hb⟩⟩
    · rw [Finset.mem_singleton.mp ha, Finset.mem_singleton.mp hb]
  · refine fun h => Relation.ReflTransGen.mono ?_ a b h
    rintro a b ⟨hash, wtx, hwtx, h⟩
    have hgroup : ∀ c, OwnInput w wtx.toCTransaction c →
        groupTx w wtx.toCTransaction ∈ (groupings w env.entries : Set Grouping) := fun c hc =>
      (mem_groupings_entries env).mpr
        ⟨hash, wtx, hwtx, .inl ⟨rfl, c, (mem_groupTx _ c).mpr (.inl hc)⟩⟩
    rcases h with ⟨ha, hb | hb⟩ | ⟨ha, hb⟩
    · exact ⟨_, hgroup a ha, (mem_groupTx _ a).mpr (.inl ha), (mem_groupTx _ b).mpr (.inl hb)⟩
    · exact ⟨_, hgroup a ha, (mem_groupTx _ a).mpr (.inl ha), (mem_groupTx _ b).mpr (.inr ⟨⟨a, ha⟩, hb⟩)⟩
    · exact ⟨_, hgroup b hb, (mem_groupTx _ a).mpr (.inr ⟨⟨b, hb⟩, ha⟩), (mem_groupTx _ b).mpr (.inl hb)⟩

end

/-! ## Merging -/

namespace Merging

/-- What `mergeHits` does to the groups at `hits`: they are deleted, and `whole'` at `merged` is the
union of these and of `whole`. -/
structure Merges (merged : Ptr) (whole whole' : Grouping) (hits : List Ptr) (s s' : Merging) : Prop where
  setmap : s'.setmap = s.setmap
  unique : ∀ p, p ∈ s'.uniqueGroupings ↔ p ∈ s.uniqueGroupings ∧ p ∉ hits
  at_merged : s'.heap.lookup merged = some whole'
  whole : ∀ a, a ∈ whole' ↔ a ∈ whole ∨ ∃ p ∈ hits, ∃ g, s.heap.lookup p = some g ∧ a ∈ g
  others : ∀ q ≠ merged, ∀ g, s'.heap.lookup q = some g ↔ q ∉ hits ∧ s.heap.lookup q = some g

theorem mem_hitsOf (setmap : Map Destination Ptr) (grouping : List Destination) (hits : Finset Ptr)
    (p : Ptr) :
    p ∈ hitsOf setmap grouping hits ↔ p ∈ hits ∨ ∃ a ∈ grouping, setmap.lookup a = some p := by
  induction grouping generalizing hits with
  | nil => simp [hitsOf]
  | cons a grouping ih =>
    rw [hitsOf, List.exists_mem_cons_iff]
    cases setmap.lookup a with
    | none => simp only [ih, reduceCtorEq, false_or]
    | some q =>
      simp only [ih]
      rw [Finset.mem_insert, Option.some.injEq, eq_comm (a := p), or_assoc, or_left_comm]

/-- Groups that are allocated, each of them once, can be merged. -/
theorem mergeHits_eq (merged : Ptr) (hits : List Ptr) (s : Merging) (whole : Grouping)
    (hnodup : hits.Nodup) (hmerged : merged ∉ hits) (hwhole : s.heap.lookup merged = some whole)
    (hlive : ∀ p ∈ hits, ∃ g, s.heap.lookup p = some g) :
    ∃ s' whole', mergeHits merged hits s = some s' ∧ Merges merged whole whole' hits s s' := by
  induction hits generalizing s whole with
  | nil =>
    refine ⟨s, whole, rfl, rfl, ?_, hwhole, ?_, ?_⟩ <;> simp
  | cons hit hits ih =>
    obtain ⟨hnot, hnodup⟩ := List.nodup_cons.mp hnodup
    rw [List.mem_cons, not_or] at hmerged
    obtain ⟨group, hgroup⟩ := hlive hit (List.mem_cons_self ..)
    set t : Merging :=
      { s with
        heap := (s.heap.insert merged (whole ∪ group)).erase hit
        uniqueGroupings := s.uniqueGroupings.erase hit } with ht
    -- the other groups are not touched by a round
    have hother : ∀ q ≠ merged, ∀ g, t.heap.lookup q = some g ↔ q ≠ hit ∧ s.heap.lookup q = some g := by
      intro q hq g
      rw [ht, Assoc.lookup_erase_iff, Assoc.lookup_insert_iff]
      simp only [hq, false_and, false_or, ne_eq, not_false_eq_true, true_and]
    have hne : ∀ p ∈ hits, p ≠ hit ∧ p ≠ merged := fun p hp =>
      ⟨fun h => hnot (h ▸ hp), fun h => hmerged.2 (h ▸ hp)⟩
    have hround : mergeHits merged (hit :: hits) s = mergeHits merged hits t := by
      simp only [mergeHits, hgroup, hwhole, Option.bind_eq_bind, Option.bind_some, ht]
    obtain ⟨s', whole', hrun, h⟩ := ih t (whole ∪ group) hnodup hmerged.2
      (by rw [ht, Assoc.lookup_erase_iff, Assoc.lookup_insert_iff]; exact ⟨hmerged.1, .inl ⟨rfl, rfl⟩⟩)
      (fun p hp =>
        let ⟨g, hg⟩ := hlive p (List.mem_cons_of_mem hit hp)
        ⟨g, (hother p (hne p hp).2 g).mpr ⟨(hne p hp).1, hg⟩⟩)
    refine ⟨s', whole', hround.trans hrun, h.setmap, ?_, h.at_merged, ?_, ?_⟩
    · intro p
      rw [h.unique, ht, Finset.mem_erase, List.mem_cons, not_or]
      tauto
    · intro a
      rw [h.whole, Finset.mem_union, List.exists_mem_cons_iff, or_assoc]
      refine or_congr Iff.rfl (or_congr ?_ ?_)
      · rw [hgroup]
        exact ⟨fun ha => ⟨group, rfl, ha⟩, fun ⟨g, hg, ha⟩ => Option.some.inj hg ▸ ha⟩
      · refine exists_congr fun p => and_congr_right fun hp => exists_congr fun g => ?_
        rw [hother p (hne p hp).2 g]
        exact and_congr_left fun _ => and_iff_right (hne p hp).1
    · intro q hq g
      rw [h.others q hq, hother q hq, List.mem_cons, not_or]
      tauto

/-- The allocated groups are the components of the sets taken up so far, `uniqueGroupings` points to all
of them and `setmap` to the one that has the address. -/
structure Ok (F : Set Grouping) (s : Merging) : Prop where
  components : Components F fun p => s.heap.lookup p
  unique : ∀ p, p ∈ s.uniqueGroupings ↔ ∃ g, s.heap.lookup p = some g
  setmap : ∀ a p, s.setmap.lookup a = some p ↔ ∃ g, s.heap.lookup p = some g ∧ a ∈ g

theorem start_ok : start.Ok ∅ where
  components := by
    have h : (fun p : Ptr => start.heap.lookup p) = fun _ => none :=
      funext fun p => AList.lookup_empty p
    rw [h]
    exact .none
  unique p := by simp [start]
  setmap a p := by simp [start]

section

variable (env : Env w)

/-- One round: no deleted group is accessed, and the groups stay the components. -/
theorem add_ok {F : Set Grouping} {s : Merging} {grouping : Grouping} (h : s.Ok F)
    (hne : grouping.Nonempty) :
    ∃ s', add env grouping s = some s' ∧ s'.Ok (insert grouping F) := by
  set merged := env.alloc s.heap with hm
  have hfresh : s.heap.lookup merged = none := env.alloc_fresh s.heap
  set hit := (hitsOf s.setmap (env.destinations grouping) ∅).sort with hhit
  have hmem : ∀ p, p ∈ hit ↔ ∃ g, s.heap.lookup p = some g ∧ ∃ c ∈ grouping, c ∈ g := by
    intro p
    rw [hhit, Finset.mem_sort, mem_hitsOf, or_iff_right (Finset.notMem_empty p)]
    constructor
    · rintro ⟨a, ha, hp⟩
      obtain ⟨g, hg, hag⟩ := (h.setmap a p).mp hp
      exact ⟨g, hg, a, (env.mem_destinations grouping a).mp ha, hag⟩
    · rintro ⟨g, hg, a, ha, hag⟩
      exact ⟨a, (env.mem_destinations grouping a).mpr ha, (h.setmap a p).mpr ⟨g, hg, hag⟩⟩
  have hnot : ∀ p g, s.heap.lookup p = some g → p ≠ merged := by
    intro p g hg hp
    rw [hp, hfresh] at hg
    exact nomatch hg
  -- the heap with the copy of the new group
  have halloc : ∀ p g, (s.heap.insert merged grouping).lookup p = some g ↔
      p = merged ∧ grouping = g ∨ p ≠ merged ∧ s.heap.lookup p = some g := fun p g =>
    Assoc.lookup_insert_iff
  obtain ⟨s', whole, hrun, hmerge⟩ := mergeHits_eq merged hit
    { s with heap := s.heap.insert merged grouping } grouping
    (Finset.sort_nodup ..)
    (fun hp => let ⟨g, hg, _⟩ := (hmem merged).mp hp; hnot merged g hg rfl)
    ((halloc _ _).mpr (.inl ⟨rfl, rfl⟩))
    (fun p hp =>
      let ⟨g, hg, _⟩ := (hmem p).mp hp
      ⟨g, (halloc p g).mpr (.inr ⟨hnot p g hg, hg⟩)⟩)
  have hwhole : ∀ a, a ∈ whole ↔ a ∈ grouping ∨
      ∃ p g, s.heap.lookup p = some g ∧ (∃ c ∈ grouping, c ∈ g) ∧ a ∈ g := by
    intro a
    rw [hmerge.whole]
    refine or_congr Iff.rfl (exists_congr fun p => ?_)
    constructor
    · rintro ⟨hp, g, hg, ha⟩
      obtain ⟨g', hg', hc⟩ := (hmem p).mp hp
      obtain ⟨rfl, -⟩ | ⟨-, hg⟩ := (halloc p g).mp hg
      · exact absurd rfl (hnot _ g' hg')
      · obtain rfl := Option.some.inj (hg.symm.trans hg')
        exact ⟨g, hg, hc, ha⟩
    · rintro ⟨g, hg, hc, ha⟩
      exact ⟨(hmem p).mpr ⟨g, hg, hc⟩, g, (halloc p g).mpr (.inr ⟨hnot p g hg, hg⟩), ha⟩
  have hrest : ∀ q ≠ merged, ∀ g, s'.heap.lookup q = some g ↔
      s.heap.lookup q = some g ∧ ∀ c ∈ grouping, c ∉ g := by
    intro q hq g
    rw [hmerge.others q hq, halloc]
    simp only [hq, false_and, false_or, ne_eq, not_false_eq_true, true_and]
    constructor
    · rintro ⟨hnothit, hg⟩
      exact ⟨hg, fun c hc hcg => hnothit ((hmem q).mpr ⟨g, hg, c, hc, hcg⟩)⟩
    · rintro ⟨hg, hno⟩
      refine ⟨fun hq => ?_, hg⟩
      obtain ⟨g', hg', c, hc, hcg⟩ := (hmem q).mp hq
      obtain rfl := Option.some.inj (hg.symm.trans hg')
      exact hno c hc hcg
  have hcomponents : Components (insert grouping F) fun p => s'.heap.lookup p :=
    h.components.merge hne hfresh hwhole hmerge.at_merged hrest
  refine ⟨{ s' with
      uniqueGroupings := insert merged s'.uniqueGroupings
      setmap := (env.destinations whole).foldl (fun setmap a => setmap.insert a merged) s'.setmap },
    ?_, hcomponents, ?_, ?_⟩
  · have hat : s'.heap.lookup (env.alloc s.heap) = some whole := hmerge.at_merged
    simp only [add, ← hm, ← hhit, hrun, hat, Option.bind_eq_bind, Option.bind_some]
  · intro p
    show p ∈ insert merged s'.uniqueGroupings ↔ _
    rw [Finset.mem_insert, hmerge.unique, h.unique]
    by_cases hp : p = merged
    · subst hp
      exact iff_of_true (.inl rfl) ⟨whole, hmerge.at_merged⟩
    · simp only [hp, false_or]
      constructor
      · rintro ⟨⟨g, hg⟩, hnothit⟩
        exact ⟨g, (hrest p hp g).mpr
          ⟨hg, fun c hc hcg => hnothit ((hmem p).mpr ⟨g, hg, c, hc, hcg⟩)⟩⟩
      · rintro ⟨g, hg⟩
        obtain ⟨hg, hno⟩ := (hrest p hp g).mp hg
        refine ⟨⟨g, hg⟩, fun hhit => ?_⟩
        obtain ⟨g', hg', c, hc, hcg⟩ := (hmem p).mp hhit
        obtain rfl := Option.some.inj (hg.symm.trans hg')
        exact hno c hc hcg
  · intro a p
    rw [hmerge.setmap, Assoc.lookup_foldl_insert_const, env.mem_destinations, h.setmap]
    by_cases hp : p = merged
    · subst hp
      simp only [hmerge.at_merged, Option.some.injEq, exists_eq_left', and_true, or_iff_left_iff_imp]
      rintro ⟨-, g, hg, -⟩
      exact absurd rfl (hnot _ g hg)
    · simp only [Ne.symm hp, and_false, false_or]
      constructor
      · rintro ⟨hout, g, hg, ha⟩
        refine ⟨g, (hrest p hp g).mpr ⟨hg, fun c hc hcg => hout ?_⟩, ha⟩
        exact (hwhole a).mpr (.inr ⟨p, g, hg, ⟨c, hc, hcg⟩, ha⟩)
      · rintro ⟨g, hg, ha⟩
        refine ⟨fun hin => hp ?_, g, ((hrest p hp g).mp hg).1, ha⟩
        exact hcomponents.unique p merged g whole a hg hmerge.at_merged ha hin

/-- The loop over `groupings`. -/
theorem addAll_ok {F : Set Grouping} {s : Merging} (groupings : List Grouping) (h : s.Ok F)
    (hne : ∀ g ∈ groupings, g.Nonempty) :
    ∃ s', addAll env groupings s = some s' ∧ s'.Ok ({g | g ∈ groupings} ∪ F) := by
  induction groupings generalizing F s with
  | nil => exact ⟨s, rfl, by simpa using h⟩
  | cons g groupings ih =>
    rw [List.forall_mem_cons] at hne
    obtain ⟨t, hadd, ht⟩ := add_ok env h hne.1
    obtain ⟨s', hrun, hs'⟩ := ih ht hne.2
    refine ⟨s', by rw [addAll, hadd, Option.bind_some, hrun], ?_⟩
    have hset : {f | f ∈ g :: groupings} ∪ F = {f | f ∈ groupings} ∪ insert g F := by
      ext f
      simp only [List.mem_cons, Set.mem_union, Set.mem_ofPred_eq, Set.mem_insert_iff]
      tauto
    rwa [hset]

end

/-- Groups that are allocated, each of them once, can be copied and deleted. -/
theorem collect_eq (ps : List Ptr) (heap : Heap) (ret : Finset Grouping) (hnodup : ps.Nodup)
    (hlive : ∀ p ∈ ps, ∃ g, heap.lookup p = some g) :
    ∃ ret' heap', collect ps heap ret = some (ret', heap') ∧
      (∀ g, g ∈ ret' ↔ g ∈ ret ∨ ∃ p ∈ ps, heap.lookup p = some g) ∧
      ∀ q g, heap'.lookup q = some g ↔ q ∉ ps ∧ heap.lookup q = some g := by
  induction ps generalizing heap ret with
  | nil => exact ⟨ret, heap, rfl, by simp, by simp⟩
  | cons p ps ih =>
    obtain ⟨hnot, hnodup⟩ := List.nodup_cons.mp hnodup
    obtain ⟨group, hgroup⟩ := hlive p (List.mem_cons_self ..)
    have hother : ∀ q ∈ ps, ∀ g, (heap.erase p).lookup q = some g ↔ heap.lookup q = some g := by
      intro q hq g
      rw [Assoc.lookup_erase_iff]
      exact and_iff_right fun h => hnot (h ▸ hq)
    obtain ⟨ret', heap', hrun, hret, hheap⟩ := ih (heap.erase p) (insert group ret) hnodup
      fun q hq =>
        let ⟨g, hg⟩ := hlive q (List.mem_cons_of_mem p hq)
        ⟨g, (hother q hq g).mpr hg⟩
    refine ⟨ret', heap', ?_, ?_, ?_⟩
    · simp only [collect, hgroup, Option.bind_eq_bind, Option.bind_some, hrun]
    · intro g
      rw [hret, Finset.mem_insert, List.exists_mem_cons_iff, hgroup, Option.some.injEq,
        eq_comm (a := g), or_assoc, or_left_comm]
      exact or_congr Iff.rfl (or_congr Iff.rfl
        (exists_congr fun q => and_congr_right fun hq => hother q hq g))
    · intro q g
      rw [hheap, Assoc.lookup_erase_iff, List.mem_cons, not_or]
      tauto

end Merging

/-! ## The partition -/

/-- What a run returns, with the components of the sets that it has listed. -/
theorem getAddressGroupings_eq (env : Env w) :
    ∃ groups, getAddressGroupings w env = some (groups, ∅) ∧
      ∃ part : Ptr → Option Grouping,
        Components (groupings w env.entries : Set Grouping) part ∧
        ∀ g, g ∈ groups ↔ ∃ p, part p = some g := by
  have hne : ∀ g ∈ env.groupings (groupings w env.entries), g.Nonempty := by
    intro g hg
    obtain ⟨hash, wtx, -, h⟩ := (mem_groupings_entries env).mp ((env.mem_groupings _ g).mp hg)
    exact h.nonempty
  obtain ⟨s, hrun, hs⟩ := Merging.addAll_ok env _ Merging.start_ok hne
  have hset : {g | g ∈ env.groupings (groupings w env.entries)} ∪ ∅ =
      (groupings w env.entries : Set Grouping) := by
    ext g
    simp only [Set.union_empty, Set.mem_ofPred_eq, env.mem_groupings, Finset.mem_coe]
  rw [hset] at hs
  obtain ⟨groups, heap, hcollect, hgroups, hheap⟩ := Merging.collect_eq _ s.heap ∅
    (Finset.sort_nodup s.uniqueGroupings (· ≤ ·))
    (fun p hp => (hs.unique p).mp ((Finset.mem_sort _).mp hp))
  -- every group is pointed to, so that none is left
  have hempty : heap = ∅ := by
    refine AList.ext (List.eq_nil_iff_forall_not_mem.mpr fun ⟨p, g⟩ hmem => ?_)
    obtain ⟨hnot, hp⟩ := (hheap p g).mp (Assoc.mem_entries.mp hmem)
    exact hnot ((Finset.mem_sort _).mpr ((hs.unique p).mpr ⟨g, hp⟩))
  refine ⟨groups, ?_, fun p => s.heap.lookup p, hs.components, fun g => ?_⟩
  · simp only [getAddressGroupings, hrun, Option.bind_eq_bind, Option.bind_some, hcollect, hempty]
  · rw [hgroups, or_iff_right (Finset.notMem_empty g)]
    exact exists_congr fun p =>
      ⟨And.right, fun hp => ⟨(Finset.mem_sort _).mpr ((hs.unique p).mpr ⟨g, hp⟩), hp⟩⟩

/-- Every wallet can be run through: its transactions can be listed, and there is always an address that
is not in use. -/
theorem env_nonempty (w : CWallet) : Nonempty (Env w) := by
  have hfresh : ∀ heap : Heap, ∃ p, heap.lookup p = none := fun heap =>
    let ⟨p, hp⟩ := Infinite.exists_notMem_finset heap.keys.toFinset
    ⟨p, AList.lookup_eq_none.mpr fun h => hp (List.mem_toFinset.mpr h)⟩
  choose alloc halloc using hfresh
  refine ⟨⟨Finset.univ.toList.filterMap fun hash => (w.mapWallet hash).map fun wtx => (hash, wtx),
    Finset.toList, Finset.toList, alloc, ?_, ?_, ?_, halloc⟩⟩
  · intro hash wtx
    simp
  · exact fun s a => Finset.mem_toList
  · exact fun s g => Finset.mem_toList

/-- Whatever the order of the loops and the addresses of the sets, `GetAddressGroupings` accesses no
deleted set, leaves none allocated, and returns the same partition: not empty and disjoint sets of the
addresses that occur, two of them in one set exactly if a chain of transactions links them. -/
theorem getAddressGroupings_components (w : CWallet) (env env' : Env w) :
    ∃ groups, getAddressGroupings w env = some (groups, ∅) ∧
      getAddressGroupings w env' = some (groups, ∅) ∧
      ∅ ∉ groups ∧ (groups : Set Grouping).PairwiseDisjoint id ∧
      (∀ a, (∃ g ∈ groups, a ∈ g) ↔ Occurs w a) ∧
      ∀ a b, (∃ g ∈ groups, a ∈ g ∧ b ∈ g) ↔
        Occurs w a ∧ Relation.ReflTransGen (PutTogether w) a b := by
  obtain ⟨groups, hrun, part, hpart, hgroups⟩ := getAddressGroupings_eq env
  obtain ⟨groups', hrun', part', hpart', hgroups'⟩ := getAddressGroupings_eq env'
  have hsame : groups' = groups := by
    ext g
    rw [hgroups, hgroups', hpart.class_iff, hpart'.class_iff]
    simp only [covered_iff, linked_iff]
  refine ⟨groups, hrun, hsame ▸ hrun', ?_, ?_, ?_, ?_⟩
  · intro hmem
    obtain ⟨p, hp⟩ := (hgroups ∅).mp hmem
    exact Finset.not_nonempty_empty (hpart.nonempty p ∅ hp)
  · intro g hg h hh hne
    obtain ⟨p, hp⟩ := (hgroups g).mp hg
    obtain ⟨q, hq⟩ := (hgroups h).mp hh
    refine Finset.disjoint_left.mpr fun a ha ha' => hne ?_
    obtain rfl := hpart.unique p q g h a hp hq ha ha'
    exact Option.some.inj (hp.symm.trans hq)
  · intro a
    rw [← covered_iff env, hpart.cover]
    simp only [hgroups]
    exact ⟨fun ⟨g, ⟨p, hp⟩, ha⟩ => ⟨p, g, hp, ha⟩, fun ⟨p, g, hp, ha⟩ => ⟨g, ⟨p, hp⟩, ha⟩⟩
  · intro a b
    rw [← covered_iff env, hpart.cover, ← linked_iff env]
    simp only [hgroups]
    constructor
    · rintro ⟨g, ⟨p, hp⟩, ha, hb⟩
      exact ⟨⟨p, g, hp, ha⟩, (hpart.linked p g a b hp ha).mp hb⟩
    · rintro ⟨⟨p, g, hp, ha⟩, hlink⟩
      exact ⟨g, ⟨p, hp⟩, ha, (hpart.linked p g a b hp ha).mpr hlink⟩

end GC.Groupings
