/-
L2 addresses, as users see them.

A key in bech32m, under a prefix that names the network.  Testnet and signet share
one prefix, so an address names a class of networks rather than a network.
-/
import Hodlchain.Lib.Result
import Hodlchain.Core.Primitives

namespace Hodlchain

open Bytes

inductive NetworkName where
  | bitcoin
  | testnet
  | signet
  | regtest
deriving DecidableEq, Repr

/-- `NetworkName::slip44_coin_type`. -/
def NetworkName.slip44CoinType : NetworkName → UInt32
  | .bitcoin => 0
  | .testnet | .signet | .regtest => 1

/-- The bech32 crate, and which byte arrays are keys. -/
structure Bech32 where
  /-- `bech32::encode::<Bech32m>`, of a prefix and the data. -/
  encode : String → Bytes → String
  /-- `bech32::decode`. -/
  decode : String → Option (String × Bytes)
  /-- `XOnlyPublicKey::from_slice(data).is_ok()`. -/
  isKey : ByteArr 32 → Bool

namespace Address

/-- What an address says about the network. -/
inductive AddressClass where
  | mainnet
  | testnetOrSignet
  | regtest
deriving DecidableEq, Repr

/-- `AddressClass::of`. -/
def AddressClass.of : NetworkName → AddressClass
  | .bitcoin => .mainnet
  | .testnet | .signet => .testnetOrSignet
  | .regtest => .regtest

/-- `AddressClass::hrp`. -/
def AddressClass.hrp : AddressClass → String
  | .mainnet => "hc"
  | .testnetOrSignet => "thc"
  | .regtest => "hcrt"

/-- `AddressClass::from_hrp`. -/
def AddressClass.fromHrp (hrp : String) : Option AddressClass :=
  if hrp = "hc" then some .mainnet
  else if hrp = "thc" then some .testnetOrSignet
  else if hrp = "hcrt" then some .regtest
  else none

inductive AddressError where
  | bech32
  | wrongHrp (expected found : String)
  | unknownHrp (hrp : String)
  | wrongLength (length : Nat)
  | invalidPubkey
deriving DecidableEq, Repr

section

variable (bech32 : Bech32)

/-- `encode`. -/
def encode (addr : XOnlyPublicKey) (network : NetworkName) : String :=
  bech32.encode (AddressClass.of network).hrp addr.serialize

/-- `decode`. -/
def decode (s : String) : Except AddressError (XOnlyPublicKey × AddressClass) := do
  let (hrp, data) ← okOr (bech32.decode s) .bech32
  let addressClass ← okOr (AddressClass.fromHrp hrp) (.unknownHrp hrp)
  if h : data.length = 32 then do
    let bytes : ByteArr 32 := ⟨data.toArray, by simpa using h⟩
    ensure (bech32.isKey bytes = true) .invalidPubkey
    pure (⟨bytes⟩, addressClass)
  else .error (.wrongLength data.length)

/-- `decode_for`. -/
def decodeFor (s : String) (network : NetworkName) : Except AddressError XOnlyPublicKey := do
  let (pk, addressClass) ← decode bech32 s
  let expected := AddressClass.of network
  ensure (addressClass = expected) (.wrongHrp expected.hrp addressClass.hrp)
  pure pk

end

end Address

end Hodlchain
