import Mathlib.Data.List.Basic
import Mathlib.Tactic.Ring

/-!
# Byte-string codecs

`Get` is a reader of byte strings, `RoundTrip put get P` says that `get` reads back what `put` wrote
for every value satisfying `P`, whatever bytes follow, and `Exact put get P` that `get` reads
nothing else. The rules compose: fixed-width little-endian numbers (`roundTrip_le`, `exact_le`), raw
bytes (`getBytes_append`, `getBytes_eq_some`) and counted repetition (`RoundTrip.getMany`,
`Exact.getMany`).
-/

namespace GC.Framework

abbrev Bytes := List UInt8

/-- A reader: a value and the bytes left, or a failure. -/
structure Get (α : Type) where
  run : Bytes → Option (α × Bytes)

namespace Get

variable {α β : Type}

instance : Monad Get where
  pure a := ⟨fun s => some (a, s)⟩
  bind x f := ⟨fun s => (x.run s).bind fun r => (f r.1).run r.2⟩

/-- The reader that fails on every input. -/
def fail : Get α := ⟨fun _ => none⟩

@[simp] theorem run_pure (a : α) (s : Bytes) : (pure a : Get α).run s = some (a, s) := rfl

theorem run_bind (x : Get α) (f : α → Get β) (s : Bytes) :
    (x >>= f).run s = (x.run s).bind fun r => (f r.1).run r.2 := rfl

/-- Reading goes on from the value and the bytes the first part left. -/
theorem run_bind_some {x : Get α} {f : α → Get β} {s s' : Bytes} {a : α}
    (h : x.run s = some (a, s')) : (x >>= f).run s = (f a).run s' := by
  rw [run_bind, h]; rfl

/-- Both parts of a successful reading succeed. -/
theorem run_bind_eq_some {x : Get α} {f : α → Get β} {s : Bytes} {r : β × Bytes} :
    (x >>= f).run s = some r ↔ ∃ a s', x.run s = some (a, s') ∧ (f a).run s' = some r := by
  rw [run_bind, Option.bind_eq_some_iff, Prod.exists]

end Get

/-- One byte. -/
def getByte : Get UInt8 where
  run
    | [] => none
    | b :: s => some (b, s)

@[simp] theorem getByte_cons (b : UInt8) (s : Bytes) : getByte.run (b :: s) = some (b, s) := rfl

/-- `n` raw bytes. -/
def getBytes (n : Nat) : Get Bytes where
  run s := if n ≤ s.length then some (s.take n, s.drop n) else none

theorem getBytes_append (xs s : Bytes) : (getBytes xs.length).run (xs ++ s) = some (xs, s) := by
  simp [getBytes]

theorem getByte_eq_some {s : Bytes} {b : UInt8} {s' : Bytes} :
    getByte.run s = some (b, s') ↔ s = b :: s' := by
  cases s with
  | nil => simp [getByte]
  | cons c s => simp [getByte]

theorem getBytes_eq_some {n : Nat} {s xs s' : Bytes} :
    (getBytes n).run s = some (xs, s') ↔ xs.length = n ∧ s = xs ++ s' := by
  constructor
  · intro h
    obtain ⟨hle, h⟩ := Option.ite_none_right_eq_some.mp h
    obtain ⟨rfl, rfl⟩ := Prod.mk.inj (Option.some.inj h)
    exact ⟨by rw [List.length_take, Nat.min_eq_left hle], (List.take_append_drop n s).symm⟩
  · rintro ⟨rfl, rfl⟩
    exact getBytes_append xs s'

/-! ## Little-endian numbers -/

/-- The `n` low bytes of `x`, least significant first. -/
def leBytes : Nat → Nat → Bytes
  | 0, _ => []
  | n + 1, x => UInt8.ofNat (x % 256) :: leBytes n (x / 256)

/-- The number with the given bytes, least significant first. -/
def leNat : Bytes → Nat
  | [] => 0
  | b :: bs => b.toNat + 256 * leNat bs

@[simp] theorem length_leBytes (n x : Nat) : (leBytes n x).length = n := by
  induction n generalizing x with
  | zero => rfl
  | succ n ih => simp [leBytes, ih]

theorem leNat_leBytes (n x : Nat) : leNat (leBytes n x) = x % 256 ^ n := by
  induction n generalizing x with
  | zero => simp [leBytes, leNat, Nat.mod_one]
  | succ n ih =>
    have hb : (UInt8.ofNat (x % 256)).toNat = x % 256 := by simp
    rw [leBytes, leNat, ih, hb, pow_succ', Nat.mod_mul]

theorem leBytes_leNat (bs : Bytes) : leBytes bs.length (leNat bs) = bs := by
  induction bs with
  | nil => rfl
  | cons b bs ih =>
    have hlow : (b.toNat + 256 * leNat bs) % 256 = b.toNat := by
      rw [Nat.add_mul_mod_self_left, Nat.mod_eq_of_lt b.toNat_lt]
    have hhigh : (b.toNat + 256 * leNat bs) / 256 = leNat bs := by
      rw [Nat.add_mul_div_left _ _ (by decide), Nat.div_eq_of_lt b.toNat_lt, Nat.zero_add]
    rw [List.length_cons, leNat, leBytes, hlow, hhigh, ih, UInt8.ofNat_toNat]

theorem leNat_lt (bs : Bytes) : leNat bs < 256 ^ bs.length := by
  have h := leNat_leBytes bs.length (leNat bs)
  rw [leBytes_leNat] at h
  rw [h]
  exact Nat.mod_lt _ (Nat.pow_pos (by decide))

/-- A little-endian number of `n` bytes. -/
def getLE (n : Nat) : Get Nat := do
  let bs ← getBytes n
  return leNat bs

theorem getLE_append (n x : Nat) (s : Bytes) :
    (getLE n).run (leBytes n x ++ s) = some (x % 256 ^ n, s) := by
  have h := getBytes_append (leBytes n x) s
  rw [length_leBytes] at h
  rw [getLE, Get.run_bind_some h, leNat_leBytes, Get.run_pure]

/-! ## Round trips -/

/-- `get` reads back what `put` wrote, and nothing more, for the values satisfying `P`. -/
def RoundTrip {α : Type} (put : α → Bytes) (get : Get α) (P : α → Prop) : Prop :=
  ∀ a, P a → ∀ s, get.run (put a ++ s) = some (a, s)

theorem roundTrip_le (n : Nat) : RoundTrip (leBytes n) (getLE n) (· < 256 ^ n) := fun a ha s => by
  rw [getLE_append, Nat.mod_eq_of_lt ha]

/-- `n` values, one after the other. -/
def getMany {α : Type} (get : Get α) : Nat → Get (List α)
  | 0 => pure []
  | n + 1 => do
    let a ← get
    let as ← getMany get n
    return a :: as

theorem length_getMany {α : Type} {get : Get α} {n : Nat} {s s' : Bytes} {as : List α}
    (h : (getMany get n).run s = some (as, s')) : as.length = n := by
  induction n generalizing s as with
  | zero =>
    cases h
    rfl
  | succ n ih =>
    obtain ⟨a, s₁, -, h⟩ := Get.run_bind_eq_some.mp h
    obtain ⟨as', s₂, hmany, h⟩ := Get.run_bind_eq_some.mp h
    cases h
    rw [List.length_cons, ih hmany]

theorem RoundTrip.getMany {α : Type} {put : α → Bytes} {get : Get α} {P : α → Prop}
    (h : RoundTrip put get P) (as : List α) (hP : ∀ a ∈ as, P a) (s : Bytes) :
    (getMany get as.length).run (as.flatMap put ++ s) = some (as, s) := by
  induction as with
  | nil => rfl
  | cons a as ih =>
    rw [List.flatMap_cons, List.append_assoc, List.length_cons, Framework.getMany,
      Get.run_bind_some (h a (hP a (List.mem_cons_self ..)) _),
      Get.run_bind_some (ih fun b hb => hP b (List.mem_cons_of_mem _ hb)), Get.run_pure]

/-! ## Exact encodings -/

/-- `get` reads what `put` writes for the values satisfying `P`, and nothing else. -/
def Exact {α : Type} (put : α → Bytes) (get : Get α) (P : α → Prop) : Prop :=
  ∀ s a s', get.run s = some (a, s') ↔ P a ∧ s = put a ++ s'

section

variable {α β : Type} {put : α → Bytes} {get : Get α} {P : α → Prop}

theorem Exact.roundTrip (h : Exact put get P) : RoundTrip put get P := fun a ha s =>
  (h _ a s).mpr ⟨ha, rfl⟩

/-- No two strings are read as the same value. -/
theorem Exact.unique (h : Exact put get P) {s t s' : Bytes} {a : α}
    (hs : get.run s = some (a, s')) (ht : get.run t = some (a, s')) : s = t :=
  ((h s a s').mp hs).2.trans ((h t a s').mp ht).2.symm

theorem Exact.run_bind_iff (h : Exact put get P) {f : α → Get β} {s s' : Bytes} {b : β} :
    (get >>= f).run s = some (b, s') ↔
      ∃ a s₁, (P a ∧ s = put a ++ s₁) ∧ (f a).run s₁ = some (b, s') := by
  have hget : ∀ s a s', get.run s = some (a, s') ↔ P a ∧ s = put a ++ s' := h
  rw [Get.run_bind_eq_some]
  simp only [hget]

/-- A number read is in range, and its bytes are those it was read from. -/
theorem getLE_eq_some {n : Nat} {s s' : Bytes} {x : Nat} (h : (getLE n).run s = some (x, s')) :
    x < 256 ^ n ∧ s = leBytes n x ++ s' := by
  obtain ⟨bs, s₁, hbs, hx⟩ := Get.run_bind_eq_some.mp h
  obtain ⟨rfl, rfl⟩ := getBytes_eq_some.mp hbs
  obtain ⟨rfl, rfl⟩ := Prod.mk.inj (Option.some.inj hx)
  exact ⟨leNat_lt bs, by rw [leBytes_leNat]⟩

theorem exact_le (n : Nat) : Exact (leBytes n) (getLE n) (· < 256 ^ n) := fun s x s' =>
  ⟨getLE_eq_some, fun ⟨hx, hs⟩ => by rw [hs, roundTrip_le n x hx s']⟩

/-- A value read as another one, which it encodes. -/
theorem Exact.map (h : Exact put get P) {put' : β → Bytes} {P' : β → Prop} {f : α → β} {g : β → α}
    (hf : ∀ a, P a → P' (f a) ∧ g (f a) = a) (hg : ∀ b, P' b → P (g b) ∧ f (g b) = b)
    (hput : ∀ b, put' b = put (g b)) : Exact put' (get >>= fun a => pure (f a)) P' := by
  intro s b s'
  rw [h.run_bind_iff]
  constructor
  · rintro ⟨a, s₁, ⟨ha, rfl⟩, hb⟩
    obtain ⟨rfl, rfl⟩ := Prod.mk.inj (Option.some.inj hb)
    rw [hput, (hf a ha).2]
    exact ⟨(hf a ha).1, rfl⟩
  · rintro ⟨hb, rfl⟩
    exact ⟨g b, s', ⟨(hg b hb).1, by rw [hput]⟩, by rw [(hg b hb).2, Get.run_pure]⟩

/-- Values read one after the other. -/
theorem Exact.getMany (h : Exact put get P) (n : Nat) :
    Exact (fun as => as.flatMap put) (getMany get n)
      fun as => as.length = n ∧ ∀ a ∈ as, P a := by
  intro s as s'
  constructor
  · intro has
    induction n generalizing s as with
    | zero =>
      obtain ⟨rfl, rfl⟩ := Prod.mk.inj (Option.some.inj has)
      exact ⟨⟨rfl, fun a ha => absurd ha List.not_mem_nil⟩, rfl⟩
    | succ n ih =>
      obtain ⟨a, s₁, ⟨ha, hs⟩, hrest⟩ := h.run_bind_iff.mp has
      obtain ⟨as', s₂, has', hpure⟩ := Get.run_bind_eq_some.mp hrest
      obtain ⟨rfl, rfl⟩ := Prod.mk.inj (Option.some.inj hpure)
      obtain ⟨⟨rfl, hall⟩, rfl⟩ := ih _ _ has'
      subst hs
      simp only [List.flatMap_cons, List.append_assoc, List.length_cons, List.forall_mem_cons]
      exact ⟨⟨trivial, ha, hall⟩, trivial⟩
  · rintro ⟨⟨rfl, hall⟩, rfl⟩
    exact h.roundTrip.getMany as hall s'

/-- Reading in two parts. -/
theorem getMany_add_iff (get : Get α) {m n : Nat} {s s' : Bytes} {as : List α} :
    (Framework.getMany get (m + n)).run s = some (as, s') ↔
      ∃ as₁ s₁ as₂, (Framework.getMany get m).run s = some (as₁, s₁) ∧
        (Framework.getMany get n).run s₁ = some (as₂, s') ∧ as = as₁ ++ as₂ := by
  induction m generalizing s s' as with
  | zero =>
    rw [Nat.zero_add]
    constructor
    · exact fun h => ⟨[], s, as, rfl, h, rfl⟩
    · rintro ⟨as₁, s₁, as₂, h₁, h₂, rfl⟩
      obtain ⟨rfl, rfl⟩ := Prod.mk.inj (Option.some.inj h₁)
      exact h₂
  | succ m ih =>
    rw [Nat.add_right_comm]
    simp only [Framework.getMany, Get.run_bind_eq_some, Get.run_pure, ih]
    constructor
    · rintro ⟨a, s₁, ha, _, _, ⟨as₁, s₂, as₂, h₁, h₂, rfl⟩, h⟩
      obtain ⟨rfl, rfl⟩ := Prod.mk.inj (Option.some.inj h)
      exact ⟨a :: as₁, s₂, as₂, ⟨a, s₁, ha, as₁, s₂, h₁, rfl⟩, h₂, rfl⟩
    · rintro ⟨_, _, as₂, ⟨a, s₁, ha, as₁, s₂, h₁, h⟩, h₂, rfl⟩
      obtain ⟨rfl, rfl⟩ := Prod.mk.inj (Option.some.inj h)
      exact ⟨a, s₁, ha, as₁ ++ as₂, s', ⟨as₁, _, as₂, h₁, h₂, rfl⟩, rfl⟩

end

end GC.Framework
