import Mathlib.Data.Finset.Union
import Mathlib.Data.Set.Pairwise.Basic
import Mathlib.Logic.Relation

/-!
# Connected components of a family of sets

Two points are linked in a family of sets if a chain of these sets leads from one to the other
(`Linked`). A collection of sets that are kept at addresses holds the components of a family
(`Components`): it does when both are empty (`Components.none`), and when a set is added to the family,
the sets that it meets are to be replaced by their union with it (`Components.merge`).

The collection is then determined by the family (`Components.class_iff`), whatever the addresses are.
-/

namespace GC.Framework

variable {α ι : Type}

/-- Some set of the family has both. -/
def Together (F : Set (Finset α)) (a b : α) : Prop := ∃ g ∈ F, a ∈ g ∧ b ∈ g

instance (F : Set (Finset α)) : Std.Symm (Together F) where
  symm _ _ := fun ⟨g, hg, ha, hb⟩ => ⟨g, hg, hb, ha⟩

/-- A chain of sets of the family leads from one to the other. -/
def Linked (F : Set (Finset α)) : α → α → Prop := Relation.ReflTransGen (Together F)

namespace Linked

variable {F G : Set (Finset α)} {a b c : α}

theorem of_mem {g : Finset α} (hg : g ∈ F) (ha : a ∈ g) (hb : b ∈ g) : Linked F a b :=
  .single ⟨g, hg, ha, hb⟩

theorem symm (h : Linked F a b) : Linked F b a :=
  Relation.ReflTransGen.stdSymm.symm a b h

theorem trans (h : Linked F a b) (h' : Linked F b c) : Linked F a c := Relation.ReflTransGen.trans h h'

theorem mono (hsub : F ⊆ G) (h : Linked F a b) : Linked G a b :=
  Relation.ReflTransGen.mono (fun _ _ ⟨g, hg, hab⟩ => ⟨g, hsub hg, hab⟩) a b h

/-- No chain leads out of what every set of the family that meets it is within. -/
theorem mem_of_closed {S : Set α} (hclosed : ∀ g ∈ F, ∀ a ∈ g, a ∈ S → ∀ b ∈ g, b ∈ S) (ha : a ∈ S)
    (h : Linked F a b) : b ∈ S := by
  induction h with
  | refl => exact ha
  | tail _ hstep ih =>
    obtain ⟨g, hg, hb, hc⟩ := hstep
    exact hclosed g hg _ hb ih _ hc

end Linked

/-- The sets at the addresses are the components of the family. -/
structure Components (F : Set (Finset α)) (part : ι → Option (Finset α)) : Prop where
  nonempty : ∀ p s, part p = some s → s.Nonempty
  unique : ∀ p q s t a, part p = some s → part q = some t → a ∈ s → a ∈ t → p = q
  cover : ∀ a, (∃ g ∈ F, a ∈ g) ↔ ∃ p s, part p = some s ∧ a ∈ s
  linked : ∀ p s a b, part p = some s → a ∈ s → (b ∈ s ↔ Linked F a b)

namespace Components

variable {F : Set (Finset α)} {part part' : ι → Option (Finset α)} {g merged : Finset α} {p q : ι}
  {s t : Finset α}

theorem none : Components (∅ : Set (Finset α)) fun _ : ι => Option.none where
  nonempty _ _ h := nomatch h
  unique _ _ _ _ _ h := nomatch h
  cover _ := ⟨fun ⟨_, hg, _⟩ => hg.elim, fun ⟨_, _, h, _⟩ => nomatch h⟩
  linked _ _ _ _ h := nomatch h

/-- A set of the family lies within the component that it meets. -/
theorem within (h : Components F part) (hp : part p = some s) (hg : g ∈ F) {a b : α} (ha : a ∈ g)
    (has : a ∈ s) (hb : b ∈ g) : b ∈ s :=
  (h.linked p s a b hp has).mpr (.of_mem hg ha hb)

/-- A set is added to the family: it and the components that it meets become one, at a new address. -/
theorem merge {m : ι} (h : Components F part) (hg : g.Nonempty) (hm : part m = Option.none)
    (hmerged : ∀ a, a ∈ merged ↔ a ∈ g ∨ ∃ p s, part p = some s ∧ (∃ c ∈ g, c ∈ s) ∧ a ∈ s)
    (hnew : part' m = some merged)
    (hrest : ∀ q ≠ m, ∀ s, part' q = some s ↔ part q = some s ∧ ∀ c ∈ g, c ∉ s) :
    Components (insert g F) part' := by
  have hsub : F ⊆ insert g F := Set.subset_insert g F
  have hsplit : ∀ {q s}, part' q = some s →
      q = m ∧ s = merged ∨ q ≠ m ∧ part q = some s ∧ ∀ c ∈ g, c ∉ s := by
    intro q s hq
    by_cases hqm : q = m
    · subst hqm
      exact .inl ⟨rfl, (Option.some.inj (hnew.symm.trans hq)).symm⟩
    · exact .inr ⟨hqm, (hrest q hqm s).mp hq⟩
  -- an old component that has a point of the merged set is one of those that were hit
  have hhit : ∀ {q s a}, part q = some s → a ∈ s → a ∈ merged → ∃ c ∈ g, c ∈ s := by
    intro q s a hq has ha
    rcases (hmerged a).mp ha with hag | ⟨p, t, hp, hc, hat⟩
    · exact ⟨a, hag, has⟩
    · obtain rfl := h.unique p q t s a hp hq hat has
      obtain rfl := Option.some.inj (hp.symm.trans hq)
      exact hc
  have hapart : ∀ {q s a}, part q = some s → (∀ c ∈ g, c ∉ s) → a ∈ s → a ∉ merged :=
    fun hq hno has ha => let ⟨c, hcg, hcs⟩ := hhit hq has ha; hno c hcg hcs
  have hclosed : ∀ f ∈ insert g F, ∀ a ∈ f, a ∈ (merged : Set α) → ∀ b ∈ f, b ∈ (merged : Set α) := by
    rintro f (rfl | hf) a haf ha b hb
    · exact (hmerged b).mpr (.inl hb)
    · obtain ⟨q, s, hq, has⟩ := (h.cover a).mp ⟨f, hf, haf⟩
      exact (hmerged b).mpr (.inr ⟨q, s, hq, hhit hq has ha, h.within hq hf haf has hb⟩)
  have hreach : ∀ a ∈ merged, ∀ c ∈ g, Linked (insert g F) a c := by
    intro a ha c hc
    rcases (hmerged a).mp ha with hag | ⟨p, s, hp, ⟨d, hdg, hds⟩, has⟩
    · exact .of_mem (Set.mem_insert g F) hag hc
    · exact (((h.linked p s a d hp has).mp hds).mono hsub).trans
        (.of_mem (Set.mem_insert g F) hdg hc)
  refine ⟨?_, ?_, ?_, ?_⟩
  · intro q s hq
    rcases hsplit hq with ⟨-, rfl⟩ | ⟨-, hq, -⟩
    · obtain ⟨c, hc⟩ := hg
      exact ⟨c, (hmerged c).mpr (.inl hc)⟩
    · exact h.nonempty q s hq
  · intro p q s t a hp hq has hat
    rcases hsplit hp with ⟨rfl, rfl⟩ | ⟨-, hp, hno⟩ <;> rcases hsplit hq with ⟨rfl, rfl⟩ | ⟨-, hq, hno'⟩
    · rfl
    · exact absurd has (hapart hq hno' hat)
    · exact absurd hat (hapart hp hno has)
    · exact h.unique p q s t a hp hq has hat
  · intro a
    constructor
    · rintro ⟨f, rfl | hf, haf⟩
      · exact ⟨m, merged, hnew, (hmerged a).mpr (.inl haf)⟩
      · obtain ⟨q, s, hq, has⟩ := (h.cover a).mp ⟨f, hf, haf⟩
        by_cases hc : ∃ c ∈ g, c ∈ s
        · exact ⟨m, merged, hnew, (hmerged a).mpr (.inr ⟨q, s, hq, hc, has⟩)⟩
        · have hqm : q ≠ m := fun hqm => nomatch hm.symm.trans (hqm ▸ hq : part m = some s)
          exact ⟨q, s, (hrest q hqm s).mpr ⟨hq, fun c hcg hcs => hc ⟨c, hcg, hcs⟩⟩, has⟩
    · rintro ⟨q, s, hq, has⟩
      have hold : ∀ {q s}, part q = some s → a ∈ s → ∃ f ∈ insert g F, a ∈ f := fun hq has =>
        let ⟨f, hf, haf⟩ := (h.cover a).mpr ⟨_, _, hq, has⟩; ⟨f, hsub hf, haf⟩
      rcases hsplit hq with ⟨-, rfl⟩ | ⟨-, hq, -⟩
      · rcases (hmerged a).mp has with hag | ⟨p, t, hp, -, hat⟩
        · exact ⟨g, Set.mem_insert g F, hag⟩
        · exact hold hp hat
      · exact hold hq has
  · intro q s a b hq has
    rcases hsplit hq with ⟨-, rfl⟩ | ⟨-, hq, hno⟩
    · constructor
      · intro hbs
        obtain ⟨c, hc⟩ := hg
        exact (hreach a has c hc).trans (hreach b hbs c hc).symm
      · exact fun hab => Linked.mem_of_closed hclosed has hab
    · refine ⟨fun hbs => ((h.linked q s a b hq has).mp hbs).mono hsub, fun hab => ?_⟩
      refine Linked.mem_of_closed (S := (s : Set α)) ?_ has hab
      rintro f (rfl | hf) c hcf hcs d hdf
      · exact absurd hcs (hno c hcf)
      · exact h.within hq hf hcf hcs hdf

/-- The components are the classes of the points that the family covers. -/
theorem class_iff (h : Components F part) :
    (∃ p, part p = some s) ↔ ∃ a, (∃ g ∈ F, a ∈ g) ∧ ∀ b, b ∈ s ↔ Linked F a b := by
  constructor
  · rintro ⟨p, hp⟩
    obtain ⟨a, ha⟩ := h.nonempty p s hp
    exact ⟨a, (h.cover a).mpr ⟨p, s, hp, ha⟩, fun b => h.linked p s a b hp ha⟩
  · rintro ⟨a, hcover, hs⟩
    obtain ⟨p, t, hp, hat⟩ := (h.cover a).mp hcover
    refine ⟨p, hp.trans (congrArg some ?_)⟩
    ext b
    rw [h.linked p t a b hp hat, hs b]

end Components

end GC.Framework
