import GameCredits.Model.Bip32
import GameCredits.Model.Text

/-!
# Addresses and secret keys as text (base58.cpp, chainparams.cpp)

Base58 data is a version and data, and has a checksum of four bytes when it is text. An address and a
secret key are such data with the versions of the network. A failed assertion is an error of its own, as
in `Model/Text.lean`.
-/

namespace GC

open Framework (Bytes)

/-- The prefixes of a network: one byte each, and not the same for keys and scripts. -/
structure Base58Prefixes where
  PUBKEY_ADDRESS : Bytes
  SCRIPT_ADDRESS : Bytes
  SECRET_KEY : Bytes
  length_pubKey : PUBKEY_ADDRESS.length = 1
  length_script : SCRIPT_ADDRESS.length = 1
  length_secret : SECRET_KEY.length = 1
  distinct : PUBKEY_ADDRESS ≠ SCRIPT_ADDRESS

/-- `CMainParams`. -/
def mainPrefixes : Base58Prefixes := ⟨[38], [5], [166], rfl, rfl, rfl, by decide⟩

/-- `CTestNetParams`, and `CRegTestParams`, which inherits them. -/
def testNetPrefixes : Base58Prefixes := ⟨[111], [196], [239], rfl, rfl, rfl, by decide⟩

structure CBase58Data where
  vchVersion : Bytes
  vchData : Bytes
  deriving DecidableEq

section

variable (hash : Bytes → UInt256)

/-- The first four bytes of a hash. -/
def checksum (vch : Bytes) : Bytes := (uint256Bytes (hash vch)).take 4

/-- `EncodeBase58Check`. -/
def encodeBase58Check (vchIn : Bytes) : Except Base58Error Bytes :=
  encodeBase58 (vchIn ++ checksum hash vchIn)

/-- `DecodeBase58Check`. -/
def decodeBase58Check (psz : Bytes) : Except Base58Error Bytes := do
  let vchRet ← decodeBase58 psz
  if vchRet.length < 4 then .error .refused
  else if checksum hash (vchRet.take (vchRet.length - 4)) ≠ vchRet.drop (vchRet.length - 4) then
    .error .refused
  else return vchRet.take (vchRet.length - 4)

namespace CBase58Data

/-- `SetString`: whether the string is accepted, and the data, which is cleared when it is not. -/
def setString (psz : Bytes) (nVersionBytes : Nat) : Except Base58Error (Bool × CBase58Data) :=
  match decodeBase58Check hash psz with
  | .error .refused => .ok (false, ⟨[], []⟩)
  | .error e => .error e
  | .ok vchTemp =>
    if vchTemp.length < nVersionBytes then .ok (false, ⟨[], []⟩)
    else .ok (true, ⟨vchTemp.take nVersionBytes, vchTemp.drop nVersionBytes⟩)

/-- `ToString`. -/
def toString (b58 : CBase58Data) : Except Base58Error Bytes :=
  encodeBase58Check hash (b58.vchVersion ++ b58.vchData)

end CBase58Data

end

/-! ## Addresses -/

namespace CBitcoinAddress

variable (params : Base58Prefixes)

/-- `Set`. -/
def set (addr : CBase58Data) : Destination → Bool × CBase58Data
  | .keyID id => (true, ⟨params.PUBKEY_ADDRESS, id.val⟩)
  | .scriptID id => (true, ⟨params.SCRIPT_ADDRESS, id.val⟩)
  | .noDestination => (false, addr)

/-- `IsValid`. -/
def isValid (addr : CBase58Data) : Bool :=
  let fCorrectSize := addr.vchData.length == 20
  let fKnownVersion := addr.vchVersion == params.PUBKEY_ADDRESS || addr.vchVersion == params.SCRIPT_ADDRESS
  fCorrectSize && fKnownVersion

variable {params} in
theorem length_of_isValid {addr : CBase58Data} (h : isValid params addr = true) :
    addr.vchData.length = 20 := by
  simp only [isValid, Bool.and_eq_true, beq_iff_eq] at h
  exact h.1

/-- `Get`. -/
def get (addr : CBase58Data) : Destination :=
  if h : isValid params addr = true then
    let id : UInt160 := ⟨addr.vchData, length_of_isValid h⟩
    if addr.vchVersion = params.PUBKEY_ADDRESS then .keyID id
    else if addr.vchVersion = params.SCRIPT_ADDRESS then .scriptID id
    else .noDestination
  else .noDestination

/-- The constructor for a destination. -/
def ofDestination (dest : Destination) : CBase58Data := (set params ⟨[], []⟩ dest).2

/-- The constructor for a C string, to which that for a `std::string` hands its `c_str()`. -/
def ofString (hash : Bytes → UInt256) (strAddress : Bytes) : Except Base58Error CBase58Data :=
  (CBase58Data.setString hash strAddress 1).map Prod.snd

end CBitcoinAddress

/-! ## Secret keys -/

namespace CBitcoinSecret

variable (params : Base58Prefixes)

/-- `SetKey`. -/
def setKey (vchSecret : Bip32.CKey) : Except Base58Error CBase58Data :=
  if vchSecret.fValid then
    .ok ⟨params.SECRET_KEY, vchSecret.vch.val ++ if vchSecret.fCompressed then [1] else []⟩
  else .error .assertFailed

/-- `GetKey`, from the new key `ret`. -/
def getKey (ret : Bip32.CKey) (secret : CBase58Data) : Except Base58Error Bip32.CKey :=
  if secret.vchData.length < 32 then .error .assertFailed
  else .ok (ret.set (secret.vchData.take 32)
    (decide (32 < secret.vchData.length) && secret.vchData[32]? == some 1))

/-- `IsValid`. -/
def isValid (secret : CBase58Data) : Bool :=
  let fExpectedFormat := secret.vchData.length == 32 ||
    (secret.vchData.length == 33 && secret.vchData[32]? == some 1)
  let fCorrectVersion := secret.vchVersion == params.SECRET_KEY
  fExpectedFormat && fCorrectVersion

/-- `SetString`. -/
def setString (hash : Bytes → UInt256) (pszSecret : Bytes) : Except Base58Error (Bool × CBase58Data) :=
  (CBase58Data.setString hash pszSecret 1).map fun r => (r.1 && isValid params r.2, r.2)

end CBitcoinSecret

end GC
