import GameCredits.Framework.Assoc
import GameCredits.Model.Bip32

/-!
# The encrypted key store (wallet/crypter.h, wallet/crypter.cpp, keystore.cpp)

`CCryptoKeyStore` with its maps of plain and of encrypted keys. The cipher, the curve and the hash
functions are a parameter (`Crypter`).
-/

namespace GC

open Framework (Bytes)
open Framework.Assoc (Map)
open Bip32 (CKey)

def WALLET_CRYPTO_KEY_SIZE : Nat := 32

/-- What is used of the cipher and of the curve. -/
structure Crypter where
  /-- AES-256-CBC with padding: `chKey`, `chIV` and the text; `none` where it fails. -/
  encrypt : (chKey chIV vchPlaintext : Bytes) → Option Bytes
  decrypt : (chKey chIV vchCiphertext : Bytes) → Option Bytes
  /-- `CKey::GetPubKey`. -/
  getPubKey : CKey → Bytes
  /-- Whether a signature of a valid key, on random data, passes `CPubKey::Verify`. -/
  signsFor : CKey → (vchPubKey : Bytes) → Bool
  /-- `CPubKey::GetHash`. -/
  getHash : Bytes → UInt256
  /-- `CPubKey::GetID`. -/
  getID : Bytes → UInt160

namespace Crypter

variable (c : Crypter)

/-- `CPubKey::IsCompressed`. -/
def isCompressed (vchPubKey : Bytes) : Bool := vchPubKey.length == 33

/-- `CKey::VerifyPubKey`; a key that is not valid signs nothing. -/
def verifyPubKey (key : CKey) (vchPubKey : Bytes) : Bool :=
  if isCompressed vchPubKey != key.fCompressed then false
  else key.fValid && c.signsFor key vchPubKey

/-- `EncryptSecret`, with the check of `CCrypter::SetKey`. -/
def encryptSecret (vMasterKey vchPlaintext : Bytes) (nIV : UInt256) : Option Bytes :=
  if vMasterKey.length ≠ WALLET_CRYPTO_KEY_SIZE then none
  else c.encrypt vMasterKey (uint256Bytes nIV) vchPlaintext

/-- `DecryptSecret`. -/
def decryptSecret (vMasterKey vchCiphertext : Bytes) (nIV : UInt256) : Option Bytes :=
  if vMasterKey.length ≠ WALLET_CRYPTO_KEY_SIZE then none
  else c.decrypt vMasterKey (uint256Bytes nIV) vchCiphertext

/-- `DecryptKey`. -/
def decryptKey (vMasterKey vchCryptedSecret vchPubKey : Bytes) : Option CKey := do
  let vchSecret ← c.decryptSecret vMasterKey vchCryptedSecret (c.getHash vchPubKey)
  if vchSecret.length ≠ 32 then none
  let key := CKey.new.set vchSecret (isCompressed vchPubKey)
  if c.verifyPubKey key vchPubKey then some key else none

end Crypter

/-! ## The store -/

structure CCryptoKeyStore where
  mapKeys : Map UInt160 CKey
  /-- A public key, and the encrypted secret. -/
  mapCryptedKeys : Map UInt160 (Bytes × Bytes)
  vMasterKey : Bytes
  fUseCrypto : Bool
  fDecryptionThoroughlyChecked : Bool

namespace CCryptoKeyStore

/-- The constructor. -/
def empty : CCryptoKeyStore := ⟨∅, ∅, [], false, false⟩

variable (c : Crypter) (store : CCryptoKeyStore)

def isLocked : Bool := store.fUseCrypto && store.vMasterKey.isEmpty

/-- `SetCrypted`; a function that fails may have changed the store. -/
def setCrypted : Bool × CCryptoKeyStore :=
  if store.fUseCrypto then (true, store)
  else if !store.mapKeys.entries.isEmpty then (false, store)
  else (true, { store with fUseCrypto := true })

/-- `Lock`. -/
def lock : Bool × CCryptoKeyStore :=
  match store.setCrypted with
  | (false, store) => (false, store)
  | (true, store) => (true, { store with vMasterKey := [] })

/-- The loop of `Unlock`: `keyPass` and `keyFail` after it. -/
def tryKeys (vMasterKeyIn : Bytes) (fDecryptionThoroughlyChecked : Bool) (keyPass : Bool) :
    List (Σ _ : UInt160, Bytes × Bytes) → Bool × Bool
  | [] => (keyPass, false)
  | ⟨_, vchPubKey, vchCryptedSecret⟩ :: entries =>
    match c.decryptKey vMasterKeyIn vchCryptedSecret vchPubKey with
    | none => (keyPass, true)
    | some _ =>
      if fDecryptionThoroughlyChecked then (true, false)
      else tryKeys vMasterKeyIn fDecryptionThoroughlyChecked true entries

/-- `Unlock`; `none` where the assertion fails. -/
def unlock (vMasterKeyIn : Bytes) : Option (Bool × CCryptoKeyStore) :=
  match store.setCrypted with
  | (false, store) => some (false, store)
  | (true, store) =>
    let (keyPass, keyFail) :=
      tryKeys c vMasterKeyIn store.fDecryptionThoroughlyChecked false store.mapCryptedKeys.entries
    if keyPass && keyFail then none
    else if keyFail || !keyPass then some (false, store)
    else
      some (true, { store with vMasterKey := vMasterKeyIn, fDecryptionThoroughlyChecked := true })

/-- `AddCryptedKey`. -/
def addCryptedKey (vchPubKey vchCryptedSecret : Bytes) : Bool × CCryptoKeyStore :=
  match store.setCrypted with
  | (false, store) => (false, store)
  | (true, store) =>
    (true, { store with
      mapCryptedKeys := store.mapCryptedKeys.insert (c.getID vchPubKey) (vchPubKey, vchCryptedSecret) })

/-- `AddKeyPubKey`. -/
def addKeyPubKey (key : CKey) (pubkey : Bytes) : Bool × CCryptoKeyStore :=
  if !store.fUseCrypto then (true, { store with mapKeys := store.mapKeys.insert (c.getID pubkey) key })
  else if store.isLocked then (false, store)
  else
    match c.encryptSecret store.vMasterKey key.vch.val (c.getHash pubkey) with
    | none => (false, store)
    | some vchCryptedSecret => store.addCryptedKey c pubkey vchCryptedSecret

/-- `HaveKey`. -/
def haveKey (address : UInt160) : Bool :=
  if !store.fUseCrypto then (store.mapKeys.lookup address).isSome
  else (store.mapCryptedKeys.lookup address).isSome

/-- `GetKey`. -/
def getKey (address : UInt160) : Option CKey :=
  if !store.fUseCrypto then store.mapKeys.lookup address
  else
    match store.mapCryptedKeys.lookup address with
    | none => none
    | some (vchPubKey, vchCryptedSecret) => c.decryptKey store.vMasterKey vchCryptedSecret vchPubKey

/-- The loop of `EncryptKeys` over the plain keys. -/
def encryptEach (vMasterKeyIn : Bytes) :
    List (Σ _ : UInt160, CKey) → CCryptoKeyStore → Bool × CCryptoKeyStore
  | [], store => (true, store)
  | ⟨_, key⟩ :: entries, store =>
    let vchPubKey := c.getPubKey key
    match c.encryptSecret vMasterKeyIn key.vch.val (c.getHash vchPubKey) with
    | none => (false, store)
    | some vchCryptedSecret =>
      match store.addCryptedKey c vchPubKey vchCryptedSecret with
      | (false, store) => (false, store)
      | (true, store) => encryptEach vMasterKeyIn entries store

/-- `EncryptKeys`. -/
def encryptKeys (vMasterKeyIn : Bytes) : Bool × CCryptoKeyStore :=
  if !store.mapCryptedKeys.entries.isEmpty || store.fUseCrypto then (false, store)
  else
    match encryptEach c vMasterKeyIn store.mapKeys.entries { store with fUseCrypto := true } with
    | (false, store) => (false, store)
    | (true, store) => (true, { store with mapKeys := ∅ })

end CCryptoKeyStore

end GC
