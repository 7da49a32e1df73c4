import GameCredits.Model.Crypter

/-!
# The encrypted key store

What is kept by every call on a `CCryptoKeyStore` whose records are all made with one master key
(`StoreHolds`): it is a plain store of the keys that were added, or it has a record of each of them and
no plain key. From that, what `Unlock` and `GetKey` do in every state that is reached
(`cryptoKeyStore_reached`).
-/

namespace GC

open Framework (Bytes)
open Framework.Assoc
open Bip32 (CKey)

/-! ## The cipher -/

/-- What is assumed of the cipher and of the curve, for the master key `vMasterKey`. -/
structure Crypter.Assumed (c : Crypter) (vMasterKey : Bytes) : Prop where
  /-- `DecryptSecret` inverts `EncryptSecret`. -/
  inverts : ∀ vchSecret nIV, ∃ vchCryptedSecret,
    c.encryptSecret vMasterKey vchSecret nIV = some vchCryptedSecret ∧
      c.decryptSecret vMasterKey vchCryptedSecret nIV = some vchSecret
  /-- A wrong master key never yields a secret that passes `VerifyPubKey`. -/
  wrong : ∀ vMasterKeyIn, vMasterKeyIn ≠ vMasterKey → ∀ key, key.fValid = true → ∀ vchCryptedSecret,
    c.encryptSecret vMasterKey key.vch.val (c.getHash (c.getPubKey key)) = some vchCryptedSecret →
      c.decryptKey vMasterKeyIn vchCryptedSecret (c.getPubKey key) = none
  /-- The public key of a key is of its kind, and verifies its signatures. -/
  compressed : ∀ key, key.fValid = true → Crypter.isCompressed (c.getPubKey key) = key.fCompressed
  signs : ∀ key, key.fValid = true → c.signsFor key (c.getPubKey key) = true

/-- The record of a key: its public key and the secret, encrypted with the master key. -/
def Crypter.record (c : Crypter) (vMasterKey : Bytes) (key : CKey) : Bytes × Bytes :=
  (c.getPubKey key,
    (c.encryptSecret vMasterKey key.vch.val (c.getHash (c.getPubKey key))).getD [])

section

variable {c : Crypter} {vMasterKey : Bytes} (h : c.Assumed vMasterKey) {key : CKey}

include h

theorem Crypter.Assumed.encrypt_record (key : CKey) :
    c.encryptSecret vMasterKey key.vch.val (c.getHash (c.getPubKey key)) =
      some (c.record vMasterKey key).2 := by
  obtain ⟨vchCryptedSecret, hencrypt, -⟩ := h.inverts key.vch.val (c.getHash (c.getPubKey key))
  rw [Crypter.record, hencrypt]
  rfl

theorem Crypter.Assumed.decrypt_record (hkey : key.fValid = true) :
    c.decryptKey vMasterKey (c.record vMasterKey key).2 (c.getPubKey key) = some key := by
  obtain ⟨vchCryptedSecret, hencrypt, hdecrypt⟩ := h.inverts key.vch.val (c.getHash (c.getPubKey key))
  have hrecord := (h.encrypt_record key).symm.trans hencrypt
  have hset : CKey.new.set key.vch.val (Crypter.isCompressed (c.getPubKey key)) = key := by
    rw [h.compressed key hkey, CKey.set_vch hkey]
  have hverify : c.verifyPubKey key (c.getPubKey key) = true := by
    rw [Crypter.verifyPubKey, h.compressed key hkey, bne_self_eq_false, if_neg Bool.false_ne_true, hkey,
      h.signs key hkey, Bool.and_true]
  rw [Crypter.decryptKey, Option.some.inj hrecord, hdecrypt]
  simp [key.vch.property, hset, hverify]

theorem Crypter.Assumed.decrypt_wrong (hkey : key.fValid = true) {vMasterKeyIn : Bytes}
    (hne : vMasterKeyIn ≠ vMasterKey) :
    c.decryptKey vMasterKeyIn (c.record vMasterKey key).2 (c.getPubKey key) = none :=
  h.wrong vMasterKeyIn hne key hkey _ (h.encrypt_record key)

/-- The master key is not empty, as a locked store's is. -/
theorem Crypter.Assumed.vMasterKey_ne_nil : vMasterKey ≠ [] := by
  rintro rfl
  obtain ⟨vchCryptedSecret, hencrypt, -⟩ := h.inverts [] 0
  cases hencrypt

end

/-! ## What a store holds -/

/-- The store has the keys `added`: all plain, or all in records that were made with the master key. -/
structure StoreHolds (c : Crypter) (vMasterKey : Bytes) (added : UInt160 → Option CKey)
    (store : CCryptoKeyStore) : Prop where
  keys : ∀ id key, added id = some key → key.fValid = true ∧ c.getID (c.getPubKey key) = id
  plain : store.fUseCrypto = false → store.mapCryptedKeys = ∅ ∧ store.vMasterKey = [] ∧
    ∀ id, store.mapKeys.lookup id = added id
  crypted : store.fUseCrypto = true → store.mapKeys = ∅ ∧
    (store.vMasterKey = [] ∨ store.vMasterKey = vMasterKey) ∧
    ∀ id, store.mapCryptedKeys.lookup id = (added id).map (c.record vMasterKey)

/-- `id` is the identifier of the key that is added. -/
def addKey (c : Crypter) (added : UInt160 → Option CKey) (key : CKey) : UInt160 → Option CKey :=
  Function.update added (c.getID (c.getPubKey key)) (some key)

section

variable {c : Crypter} {vMasterKey : Bytes} {added : UInt160 → Option CKey} {store : CCryptoKeyStore}
  {key : CKey}

theorem storeHolds_empty : StoreHolds c vMasterKey (fun _ => none) .empty where
  keys _ _ h := by cases h
  plain _ := ⟨rfl, rfl, fun _ => rfl⟩
  crypted h := by cases h

theorem map_eq_empty {ν : Type} {m : Map UInt160 ν} (h : ∀ id, m.lookup id = none) : m = ∅ := by
  apply AList.ext
  apply List.eq_nil_iff_forall_not_mem.mpr
  rintro ⟨id, v⟩ hmem
  have hfound := mem_entries.mp hmem
  rw [h id] at hfound
  cases hfound

/-- The keys stay right when one is added. -/
theorem StoreHolds.addKey_keys (h : StoreHolds c vMasterKey added store) (hkey : key.fValid = true) :
    ∀ id key', addKey c added key id = some key' →
      key'.fValid = true ∧ c.getID (c.getPubKey key') = id := by
  intro id key' hadded
  unfold addKey at hadded
  by_cases hid : id = c.getID (c.getPubKey key)
  · rw [hid, Function.update_self] at hadded
    cases hadded
    exact ⟨hkey, hid.symm⟩
  · rw [Function.update_of_ne hid] at hadded
    exact h.keys id key' hadded

/-- `SetCrypted` refuses a store with plain keys, and makes an empty one an encrypted one. -/
theorem StoreHolds.setCrypted (h : StoreHolds c vMasterKey added store) :
    (store.setCrypted = (false, store) ∧ store.fUseCrypto = false ∧ ∃ id, added id ≠ none) ∨
      ∃ store', store.setCrypted = (true, store') ∧ store'.fUseCrypto = true ∧
        StoreHolds c vMasterKey added store' ∧
        (store' = store ∨ store.fUseCrypto = false ∧ (∀ id, added id = none) ∧
          store' = { store with fUseCrypto := true }) := by
  unfold CCryptoKeyStore.setCrypted
  cases hcrypted : store.fUseCrypto with
  | true => exact .inr ⟨store, rfl, hcrypted, h, .inl rfl⟩
  | false =>
    obtain ⟨hmap, hmaster, hlookup⟩ := h.plain hcrypted
    cases hempty : store.mapKeys.entries with
    | nil =>
      have hnone : ∀ id, added id = none := fun id => by
        rw [← hlookup id, AList.lookup, hempty]
        rfl
      refine .inr ⟨{ store with fUseCrypto := true }, rfl, rfl, ⟨h.keys, nofun, fun _ => ?_⟩,
        .inr ⟨rfl, hnone, rfl⟩⟩
      refine ⟨AList.ext hempty, .inl hmaster, fun id => ?_⟩
      show store.mapCryptedKeys.lookup id = _
      rw [hmap, hnone id]
      rfl
    | cons e entries =>
      refine .inl ⟨rfl, rfl, e.1, ?_⟩
      have hfound : store.mapKeys.lookup e.1 = some e.2 :=
        mem_entries.mp (by rw [hempty]; exact List.mem_cons_self)
      rw [← hlookup, hfound]
      exact nofun

theorem setCrypted_of_crypted (hcrypted : store.fUseCrypto = true) :
    store.setCrypted = (true, store) := if_pos hcrypted

theorem StoreHolds.lock (h : StoreHolds c vMasterKey added store) :
    StoreHolds c vMasterKey added store.lock.2 := by
  unfold CCryptoKeyStore.lock
  rcases h.setCrypted with ⟨hset, -⟩ | ⟨store', hset, hcrypted, h', -⟩
  · rw [hset]
    exact h
  · rw [hset]
    obtain ⟨hmap, -, hlookup⟩ := h'.crypted hcrypted
    refine ⟨h.keys, fun hplain => ?_, fun _ => ⟨hmap, .inl rfl, hlookup⟩⟩
    rw [show store'.fUseCrypto = false from hplain] at hcrypted
    cases hcrypted

/-- A record of a key is added, unless the store has plain keys. -/
theorem StoreHolds.addCryptedKey (h : StoreHolds c vMasterKey added store) (hkey : key.fValid = true)
    {ok : Bool} {store' : CCryptoKeyStore}
    (hadd : store.addCryptedKey c (c.record vMasterKey key).1 (c.record vMasterKey key).2 =
      (ok, store')) :
    StoreHolds c vMasterKey (if ok then addKey c added key else added) store' := by
  unfold CCryptoKeyStore.addCryptedKey at hadd
  rcases h.setCrypted with ⟨hset, -⟩ | ⟨store₁, hset, hcrypted, h₁, -⟩
  · rw [hset] at hadd
    cases hadd
    exact h
  · rw [hset] at hadd
    cases hadd
    obtain ⟨hmap, hmaster, hlookup⟩ := h₁.crypted hcrypted
    refine ⟨h.addKey_keys hkey, fun hplain => ?_, fun _ => ⟨hmap, hmaster, fun id => ?_⟩⟩
    · rw [show store₁.fUseCrypto = false from hplain] at hcrypted
      cases hcrypted
    · show (store₁.mapCryptedKeys.insert (c.getID (c.getPubKey key)) _).lookup id =
        (addKey c added key id).map _
      unfold addKey
      by_cases hid : id = c.getID (c.getPubKey key)
      · rw [hid, AList.lookup_insert, Function.update_self]
        rfl
      · rw [AList.lookup_insert_ne hid, Function.update_of_ne hid, hlookup]

/-- A key is added: plain, or as a record when the store is unlocked. -/
theorem StoreHolds.addKeyPubKey (hc : c.Assumed vMasterKey)
    (h : StoreHolds c vMasterKey added store) (hkey : key.fValid = true) {ok : Bool}
    {store' : CCryptoKeyStore} (hadd : store.addKeyPubKey c key (c.getPubKey key) = (ok, store')) :
    StoreHolds c vMasterKey (if ok then addKey c added key else added) store' := by
  unfold CCryptoKeyStore.addKeyPubKey at hadd
  cases hcrypted : store.fUseCrypto with
  | false =>
    rw [hcrypted] at hadd
    cases hadd
    obtain ⟨hmap, hmaster, hlookup⟩ := h.plain hcrypted
    refine ⟨h.addKey_keys hkey, fun _ => ⟨hmap, hmaster, fun id => ?_⟩, nofun⟩
    show (store.mapKeys.insert (c.getID (c.getPubKey key)) key).lookup id = addKey c added key id
    unfold addKey
    by_cases hid : id = c.getID (c.getPubKey key)
    · rw [hid, AList.lookup_insert, Function.update_self]
    · rw [AList.lookup_insert_ne hid, Function.update_of_ne hid, hlookup]
  | true =>
    obtain ⟨-, hmaster, -⟩ := h.crypted hcrypted
    simp only [hcrypted, Bool.not_true, Bool.false_eq_true, if_false, CCryptoKeyStore.isLocked,
      Bool.true_and] at hadd
    rcases hmaster with hmaster | hmaster
    · rw [hmaster] at hadd
      cases hadd
      exact h
    · have hunlocked : store.vMasterKey.isEmpty = false := by
        rw [hmaster]
        simpa using hc.vMasterKey_ne_nil
      rw [hunlocked, hmaster, hc.encrypt_record] at hadd
      exact h.addCryptedKey hkey hadd

/-! ## EncryptKeys -/

/-- The loop of `EncryptKeys` adds the records of the plain keys. -/
theorem encryptEach_eq (hc : c.Assumed vMasterKey) {es : List (Σ _ : UInt160, CKey)}
    (hkeys : ∀ e ∈ es, c.getID (c.getPubKey e.2) = e.1) (hnodup : es.NodupKeys)
    (hcrypted : store.fUseCrypto = true) :
    ∃ m, CCryptoKeyStore.encryptEach c vMasterKey es store =
        (true, { store with mapCryptedKeys := m }) ∧
      ∀ id, m.lookup id = match es.dlookup id with
        | some key => some (c.record vMasterKey key)
        | none => store.mapCryptedKeys.lookup id := by
  induction es generalizing store with
  | nil => exact ⟨_, rfl, fun _ => rfl⟩
  | cons e es ih =>
    obtain ⟨id₁, key⟩ := e
    have hid₁ : c.getID (c.getPubKey key) = id₁ := hkeys _ List.mem_cons_self
    rw [List.nodupKeys_cons] at hnodup
    have hadd : store.addCryptedKey c (c.getPubKey key) (c.record vMasterKey key).2 =
        (true, { store with
          mapCryptedKeys := store.mapCryptedKeys.insert id₁ (c.record vMasterKey key) }) := by
      rw [CCryptoKeyStore.addCryptedKey, setCrypted_of_crypted hcrypted, hid₁]
      rfl
    obtain ⟨m, hm, hlookup⟩ := @ih { store with
      mapCryptedKeys := store.mapCryptedKeys.insert id₁ (c.record vMasterKey key) }
      (fun e he => hkeys e (List.mem_cons_of_mem _ he)) hnodup.2 hcrypted
    refine ⟨m, ?_, fun id => ?_⟩
    · rw [CCryptoKeyStore.encryptEach]
      simp only [hc.encrypt_record, hadd]
      exact hm
    · rw [hlookup]
      by_cases hid : id = id₁
      · subst hid
        rw [List.dlookup_cons_eq, List.dlookup_eq_none.mpr hnodup.1]
        exact AList.lookup_insert _
      · rw [List.dlookup_cons_ne _ _ hid]
        cases es.dlookup id with
        | some key' => rfl
        | none => exact AList.lookup_insert_ne hid

/-- `EncryptKeys` turns the plain keys into records, where the store is not encrypted. -/
theorem StoreHolds.encryptKeys (hc : c.Assumed vMasterKey)
    (h : StoreHolds c vMasterKey added store) :
    StoreHolds c vMasterKey added (store.encryptKeys c vMasterKey).2 := by
  unfold CCryptoKeyStore.encryptKeys
  cases hcrypted : store.fUseCrypto with
  | true =>
    rw [Bool.or_true, if_pos rfl]
    exact h
  | false =>
    obtain ⟨hmap, hmaster, hlookup⟩ := h.plain hcrypted
    have hkeys : ∀ e ∈ store.mapKeys.entries, c.getID (c.getPubKey e.2) = e.1 := fun e he =>
      (h.keys e.1 e.2 ((hlookup e.1).symm.trans (mem_entries.mp he))).2
    have huse : ({ store with fUseCrypto := true } : CCryptoKeyStore).fUseCrypto = true := rfl
    obtain ⟨m, hm, hrecords⟩ := encryptEach_eq hc hkeys store.mapKeys.nodupKeys huse
    have hempty : store.mapCryptedKeys.entries.isEmpty = true := by
      rw [hmap]
      rfl
    rw [hempty, hm]
    refine ⟨h.keys, nofun, fun _ => ⟨rfl, .inl hmaster, fun id => ?_⟩⟩
    have hfound : store.mapKeys.entries.dlookup id = added id := hlookup id
    show m.lookup id = _
    rw [hrecords, hfound]
    cases added id with
    | some key => rfl
    | none =>
      show store.mapCryptedKeys.lookup id = none
      rw [hmap]
      rfl

/-! ## Unlock and GetKey -/

/-- Where each record decrypts, so do all of them. -/
theorem tryKeys_pass {vMasterKeyIn : Bytes} (fThorough keyPass : Bool)
    {es : List (Σ _ : UInt160, Bytes × Bytes)}
    (hpass : ∀ e ∈ es, c.decryptKey vMasterKeyIn e.2.2 e.2.1 ≠ none) :
    CCryptoKeyStore.tryKeys c vMasterKeyIn fThorough keyPass es = (keyPass || !es.isEmpty, false) := by
  induction es generalizing keyPass with
  | nil => rw [CCryptoKeyStore.tryKeys, List.isEmpty_nil, Bool.not_true, Bool.or_false]
  | cons e es ih =>
    obtain ⟨key, hkey⟩ := Option.ne_none_iff_exists'.mp (hpass e List.mem_cons_self)
    rw [CCryptoKeyStore.tryKeys, hkey, List.isEmpty_cons, Bool.not_false, Bool.or_true]
    simp only
    rw [ih true fun e he => hpass e (List.mem_cons_of_mem _ he), Bool.true_or]
    split_ifs <;> rfl

/-- Where no record decrypts, the first one fails. -/
theorem tryKeys_fail {vMasterKeyIn : Bytes} (fThorough keyPass : Bool)
    {es : List (Σ _ : UInt160, Bytes × Bytes)}
    (hfail : ∀ e ∈ es, c.decryptKey vMasterKeyIn e.2.2 e.2.1 = none) :
    CCryptoKeyStore.tryKeys c vMasterKeyIn fThorough keyPass es = (keyPass, !es.isEmpty) := by
  cases es with
  | nil => rfl
  | cons e es =>
    rw [CCryptoKeyStore.tryKeys, hfail e List.mem_cons_self]
    rfl

/-- An entry of an encrypted store is the record of a key. -/
theorem StoreHolds.of_mem (h : StoreHolds c vMasterKey added store) (hcrypted : store.fUseCrypto = true)
    {e : Σ _ : UInt160, Bytes × Bytes} (he : e ∈ store.mapCryptedKeys.entries) :
    ∃ key, key.fValid = true ∧ added e.1 = some key ∧ e.2 = c.record vMasterKey key := by
  obtain ⟨-, -, hlookup⟩ := h.crypted hcrypted
  have hfound := (hlookup e.1).symm.trans (mem_entries.mp he)
  obtain ⟨key, hadded, hrecord⟩ := Option.map_eq_some_iff.mp hfound
  exact ⟨key, (h.keys e.1 key hadded).1, hadded, hrecord.symm⟩

/-- The entries of an encrypted store are none just when no key has been added. -/
theorem StoreHolds.isEmpty_iff (h : StoreHolds c vMasterKey added store)
    (hcrypted : store.fUseCrypto = true) :
    store.mapCryptedKeys.entries.isEmpty = true ↔ ∀ id, added id = none := by
  obtain ⟨-, -, hlookup⟩ := h.crypted hcrypted
  rw [List.isEmpty_iff]
  constructor
  · intro hnil id
    have hnone : store.mapCryptedKeys.lookup id = none := by
      rw [AList.lookup, hnil]
      rfl
    rw [hlookup] at hnone
    exact Option.map_eq_none_iff.mp hnone
  · intro hnone
    refine congrArg AList.entries (map_eq_empty (m := store.mapCryptedKeys) fun id => ?_)
    rw [hlookup, hnone]
    rfl

/-- `Unlock` accepts the master key alone, when a key has been added and the store is encrypted. What it
refuses it leaves, but for a store without keys, which it makes an encrypted one. -/
theorem StoreHolds.unlock (hc : c.Assumed vMasterKey) (h : StoreHolds c vMasterKey added store)
    (vMasterKeyIn : Bytes) :
    ∃ ok store', store.unlock c vMasterKeyIn = some (ok, store') ∧
      StoreHolds c vMasterKey added store' ∧
      (ok = false → store' = store ∨ store.fUseCrypto = false ∧ (∀ id, added id = none) ∧
        store' = { store with fUseCrypto := true }) ∧
      (store.fUseCrypto = true → vMasterKeyIn = vMasterKey → (∃ id, added id ≠ none) → ok = true) := by
  unfold CCryptoKeyStore.unlock
  rcases h.setCrypted with ⟨hset, hplain, -⟩ | ⟨store₁, hset, hcrypted, h₁, hsame⟩
  · rw [hset]
    exact ⟨false, store, rfl, h, fun _ => .inl rfl, fun huse => by rw [hplain] at huse; cases huse⟩
  · rw [hset]
    simp only
    by_cases hright : vMasterKeyIn = vMasterKey
    · rw [tryKeys_pass _ _ fun e he => by
        obtain ⟨key, hkey, -, hrecord⟩ := h₁.of_mem hcrypted he
        rw [hrecord, hright]
        exact fun hnone => Option.some_ne_none key ((hc.decrypt_record hkey).symm.trans hnone)]
      cases hempty : store₁.mapCryptedKeys.entries.isEmpty with
      | true =>
        have hnone := (h₁.isEmpty_iff hcrypted).mp hempty
        exact ⟨false, store₁, rfl, h₁, fun _ => hsame, fun _ _ ⟨id, hid⟩ => absurd (hnone id) hid⟩
      | false =>
        obtain ⟨hmap, -, hlookup⟩ := h₁.crypted hcrypted
        refine ⟨true, _, rfl, ⟨h.keys, fun hplain => ?_, fun _ => ⟨hmap, .inr hright, hlookup⟩⟩, nofun,
          fun _ _ _ => rfl⟩
        rw [show store₁.fUseCrypto = false from hplain] at hcrypted
        cases hcrypted
    · rw [tryKeys_fail _ _ fun e he => by
        obtain ⟨key, hkey, -, hrecord⟩ := h₁.of_mem hcrypted he
        rw [hrecord]
        exact hc.decrypt_wrong hkey hright]
      refine ⟨false, store₁, ?_, h₁, fun _ => hsame, fun _ heq => absurd heq hright⟩
      simp

/-- `GetKey` finds the keys that have been added, unless the store is locked. -/
theorem StoreHolds.getKey (hc : c.Assumed vMasterKey) (h : StoreHolds c vMasterKey added store)
    (hunlocked : store.isLocked = false) (id : UInt160) : store.getKey c id = added id := by
  unfold CCryptoKeyStore.getKey
  cases hcrypted : store.fUseCrypto with
  | false => exact (h.plain hcrypted).2.2 id
  | true =>
    obtain ⟨-, hmaster, hlookup⟩ := h.crypted hcrypted
    rw [CCryptoKeyStore.isLocked, hcrypted, Bool.true_and] at hunlocked
    have hopen : store.vMasterKey = vMasterKey := by
      refine hmaster.resolve_left fun hnil => ?_
      rw [hnil] at hunlocked
      cases hunlocked
    rw [hlookup, hopen]
    cases hadded : added id with
    | none => rfl
    | some key => exact hc.decrypt_record (h.keys id key hadded).1

/-- `HaveKey` is true of the keys that have been added, also of a locked store. -/
theorem StoreHolds.haveKey (h : StoreHolds c vMasterKey added store) (id : UInt160) :
    store.haveKey id = (added id).isSome := by
  unfold CCryptoKeyStore.haveKey
  cases hcrypted : store.fUseCrypto with
  | false => exact congrArg Option.isSome ((h.plain hcrypted).2.2 id)
  | true => exact (congrArg Option.isSome ((h.crypted hcrypted).2.2 id)).trans Option.isSome_map

theorem StoreHolds.exists_haveKey (h : StoreHolds c vMasterKey added store) :
    (∃ id, store.haveKey id = true) ↔ ∃ id, added id ≠ none := by
  simp only [h.haveKey, Option.isSome_iff_ne_none]

end

/-! ## Runs -/

/-- The calls that are looked at: keys come with their own public key, and records with those that the
master key makes of them. -/
inductive KeyStoreCall where
  | addKeyPubKey (key : CKey)
  | encryptKeys
  | addCryptedKey (key : CKey)
  | lock
  | unlock (vMasterKeyIn : Bytes)

/-- The key that a call is to add. -/
def KeyStoreCall.key : KeyStoreCall → Option CKey
  | addKeyPubKey key | addCryptedKey key => some key
  | _ => none

/-- A call: what it returns and the store after it, or `none` where an assertion fails. -/
def KeyStoreCall.run (c : Crypter) (vMasterKey : Bytes) (store : CCryptoKeyStore) :
    KeyStoreCall → Option (Bool × CCryptoKeyStore)
  | addKeyPubKey key => some (store.addKeyPubKey c key (c.getPubKey key))
  | encryptKeys => some (store.encryptKeys c vMasterKey)
  | addCryptedKey key =>
    some (store.addCryptedKey c (c.record vMasterKey key).1 (c.record vMasterKey key).2)
  | lock => some store.lock
  | unlock vMasterKeyIn => store.unlock c vMasterKeyIn

/-- The keys that have been added when a call has returned `ok`. -/
def KeyStoreCall.addedAfter (c : Crypter) (added : UInt160 → Option CKey) (call : KeyStoreCall)
    (ok : Bool) : UInt160 → Option CKey :=
  match call.key with
  | some key => if ok then addKey c added key else added
  | none => added

/-- The stores that sequences of calls lead to, with the keys that have been added on the way. -/
inductive StoreReached (c : Crypter) (vMasterKey : Bytes) :
    (UInt160 → Option CKey) → CCryptoKeyStore → Prop
  | empty : StoreReached c vMasterKey (fun _ => none) .empty
  | call {added store call ok store'} (h : StoreReached c vMasterKey added store)
      (hkey : ∀ key, KeyStoreCall.key call = some key → key.fValid = true)
      (hrun : call.run c vMasterKey store = some (ok, store')) :
      StoreReached c vMasterKey (call.addedAfter c added ok) store'

section

variable {c : Crypter} {vMasterKey : Bytes} {added : UInt160 → Option CKey} {store : CCryptoKeyStore}

/-- A call returns, and what the store holds is kept. -/
theorem StoreHolds.call (hc : c.Assumed vMasterKey) (h : StoreHolds c vMasterKey added store)
    {call : KeyStoreCall} (hkey : ∀ key, call.key = some key → key.fValid = true) :
    ∃ ok store', call.run c vMasterKey store = some (ok, store') ∧
      StoreHolds c vMasterKey (call.addedAfter c added ok) store' := by
  cases call with
  | addKeyPubKey key => exact ⟨_, _, rfl, h.addKeyPubKey hc (hkey key rfl) rfl⟩
  | encryptKeys => exact ⟨_, _, rfl, h.encryptKeys hc⟩
  | addCryptedKey key => exact ⟨_, _, rfl, h.addCryptedKey (hkey key rfl) rfl⟩
  | lock => exact ⟨_, _, rfl, h.lock⟩
  | unlock vMasterKeyIn =>
    obtain ⟨ok, store', hunlock, h', -⟩ := h.unlock hc vMasterKeyIn
    exact ⟨ok, store', hunlock, h'⟩

theorem StoreReached.holds (hc : c.Assumed vMasterKey) (h : StoreReached c vMasterKey added store) :
    StoreHolds c vMasterKey added store := by
  induction h with
  | empty => exact storeHolds_empty
  | call h hkey hrun ih =>
    obtain ⟨ok, store', hrun', h'⟩ := ih.call hc hkey
    cases hrun.symm.trans hrun'
    exact h'

end

/-- In every state that is reached: no assertion fails; there is no plain key in an encrypted store; an
`Unlock` that returns false changes nothing, but for a store without keys, which it makes an encrypted
one; the master key unlocks an encrypted store that has a key; and `GetKey` finds the keys that were
added, unless the store is locked. -/
theorem cryptoKeyStore_reached {c : Crypter} {vMasterKey : Bytes} (hc : c.Assumed vMasterKey)
    {added : UInt160 → Option CKey} {store : CCryptoKeyStore}
    (h : StoreReached c vMasterKey added store) :
    (∀ call : KeyStoreCall, (∀ key, call.key = some key → key.fValid = true) →
      ∃ ok store', call.run c vMasterKey store = some (ok, store')) ∧
    (store.fUseCrypto = true → store.mapKeys = ∅) ∧
    (∀ vMasterKeyIn store', store.unlock c vMasterKeyIn = some (false, store') →
      store' = store ∨ store.fUseCrypto = false ∧ (∀ id, store.haveKey id = false) ∧
        store' = { store with fUseCrypto := true }) ∧
    (store.fUseCrypto = true → (∃ id, store.haveKey id = true) →
      ∃ store', store.unlock c vMasterKey = some (true, store')) ∧
    (store.isLocked = false → ∀ id, store.getKey c id = added id) := by
  have hholds := h.holds hc
  refine ⟨fun call hkey => ?_, fun hcrypted => (hholds.crypted hcrypted).1,
    fun vMasterKeyIn store' hfalse => ?_, fun hcrypted hkey => ?_, fun hopen => hholds.getKey hc hopen⟩
  · obtain ⟨ok, store', hrun, -⟩ := hholds.call hc hkey
    exact ⟨ok, store', hrun⟩
  · obtain ⟨ok, store₁, hunlock, -, hsame, -⟩ := hholds.unlock hc vMasterKeyIn
    cases hunlock.symm.trans hfalse
    refine (hsame rfl).imp id fun ⟨hplain, hnone, heq⟩ => ⟨hplain, fun id => ?_, heq⟩
    rw [hholds.haveKey, hnone id]
    rfl
  · obtain ⟨ok, store', hunlock, -, -, hright⟩ := hholds.unlock hc vMasterKey
    obtain rfl := hright hcrypted rfl (hholds.exists_haveKey.mp hkey)
    exact ⟨store', hunlock⟩

/-! ## A store that is not encrypted -/

/-- A cipher that writes the key before the text. -/
def plainCrypter : Crypter where
  encrypt chKey _ vchPlaintext := some (chKey ++ vchPlaintext)
  decrypt chKey _ vchCiphertext :=
    if vchCiphertext.take 32 = chKey then some (vchCiphertext.drop 32) else none
  getPubKey key := if key.fCompressed then 2 :: key.vch.val else 4 :: (key.vch.val ++ key.vch.val)
  signsFor key vchPubKey :=
    vchPubKey == if key.fCompressed then 2 :: key.vch.val else 4 :: (key.vch.val ++ key.vch.val)
  getHash _ := 0
  getID vchPubKey := ⟨(vchPubKey ++ List.replicate 20 0).take 20, length_padded vchPubKey⟩

theorem plainCrypter_assumed {vMasterKey : Bytes} (hlen : vMasterKey.length = 32) :
    plainCrypter.Assumed vMasterKey where
  inverts vchSecret nIV := by
    have hsize : ¬ vMasterKey.length ≠ WALLET_CRYPTO_KEY_SIZE := not_not.mpr hlen
    refine ⟨vMasterKey ++ vchSecret, if_neg hsize, ?_⟩
    rw [Crypter.decryptSecret, if_neg hsize]
    show (if (vMasterKey ++ vchSecret).take 32 = vMasterKey then _ else _) = _
    rw [← hlen, List.take_left, List.drop_left, if_pos rfl]
  wrong vMasterKeyIn hne key hkey vchCryptedSecret hencrypt := by
    have hcrypted : vMasterKey ++ key.vch.val = vchCryptedSecret := by
      rw [Crypter.encryptSecret, if_neg (show ¬ vMasterKey.length ≠ WALLET_CRYPTO_KEY_SIZE from
        not_not.mpr hlen)] at hencrypt
      exact Option.some.inj hencrypt
    have htake : vchCryptedSecret.take 32 = vMasterKey := by rw [← hcrypted, List.take_left' hlen]
    have hdecrypt : plainCrypter.decryptSecret vMasterKeyIn vchCryptedSecret
        (plainCrypter.getHash (plainCrypter.getPubKey key)) = none := by
      rw [Crypter.decryptSecret]
      split_ifs
      · rfl
      · show (if vchCryptedSecret.take 32 = vMasterKeyIn then _ else _) = _
        rw [htake, if_neg (Ne.symm hne)]
    rw [Crypter.decryptKey, hdecrypt]
    rfl
  compressed key hkey := by
    have hlength := key.vch.property
    show ((if key.fCompressed then 2 :: key.vch.val else 4 :: (key.vch.val ++ key.vch.val)).length == 33) = _
    cases key.fCompressed <;> simp [hlength]
  signs key _ := beq_self_eq_true _

def sevens : Bytes := List.replicate 32 7

def oneKey : CKey := ⟨⟨List.replicate 32 1, rfl⟩, true, true, fun _ => by decide⟩

/-- A store with one key that has been encrypted. -/
def oneStore : CCryptoKeyStore :=
  ((CCryptoKeyStore.empty.addKeyPubKey plainCrypter oneKey
    (plainCrypter.getPubKey oneKey)).2.encryptKeys plainCrypter sevens).2

theorem oneStore_unlocks : ∃ store', oneStore.unlock plainCrypter sevens = some (true, store') := by
  have hkey : ∀ key, (KeyStoreCall.addKeyPubKey oneKey).key = some key → key.fValid = true := by
    rintro key ⟨⟩
    rfl
  have hnone : ∀ key, KeyStoreCall.encryptKeys.key = some key → key.fValid = true := nofun
  have hreached : StoreReached plainCrypter sevens _ oneStore := .call (.call .empty hkey rfl) hnone rfl
  exact (cryptoKeyStore_reached (plainCrypter_assumed rfl) hreached).2.2.2.1 (by decide)
    ⟨plainCrypter.getID (plainCrypter.getPubKey oneKey), by decide +kernel⟩

/-- An `Unlock` that fails turns a new store into an encrypted one, to which no key can be added; and a
store with a plain key is not unlocked. -/
theorem unlock_counterexample :
    CCryptoKeyStore.empty.unlock plainCrypter sevens =
        some (false, { CCryptoKeyStore.empty with fUseCrypto := true }) ∧
      { CCryptoKeyStore.empty with fUseCrypto := true } ≠ CCryptoKeyStore.empty ∧
      ({ CCryptoKeyStore.empty with fUseCrypto := true }.addKeyPubKey plainCrypter oneKey
        (plainCrypter.getPubKey oneKey)).1 = false ∧
      (let store := (CCryptoKeyStore.empty.addKeyPubKey plainCrypter oneKey
        (plainCrypter.getPubKey oneKey)).2
      store.haveKey (plainCrypter.getID (plainCrypter.getPubKey oneKey)) = true ∧
        store.unlock plainCrypter sevens = some (false, store)) := by
  refine ⟨rfl, fun heq => ?_, rfl, by decide +kernel, rfl⟩
  exact Bool.false_ne_true (congrArg CCryptoKeyStore.fUseCrypto heq).symm

end GC
