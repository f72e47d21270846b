import RizzyVault.Sync.VersionVector

/-!
# Operation and snapshot headers

The signed headers the server sees in the clear: an operation's header names its item, its dot,
the author's previous operation in the vault, its clock value and its causal context; a
snapshot's header names its item, its author and the version vector it covers.

## References

* `crates/rizzy-sync/src/header.rs`.
-/

namespace RizzyVault.Sync

/-- The version of an item's schema: a 16-bit number other than `0` and `0xFFFF`. -/
structure ItemSchemaVersion where
  val : ℕ
  ne_zero : val ≠ 0
  lt : val < 0xFFFF
  deriving DecidableEq

/-- The one version this build knows. -/
def ItemSchemaVersion.v1 : ItemSchemaVersion := ⟨1, by decide, by decide⟩

/-- An operation's causal context: the item's version vector its author had. -/
abbrev CausalContext := VersionVector

/-- The header of one operation. `vaultPrevSeq` is the author's previous operation in the vault,
zero before the first. -/
structure OpHeader where
  vaultId : VaultId
  itemId : ItemId
  opId : OpId
  dot : Dot
  vaultPrevSeq : ℕ
  hlc : Hlc
  itemSchemaVersion : ItemSchemaVersion
  vaultKeyEpoch : ℕ
  causalContext : CausalContext
  vaultPrevSeq_lt : vaultPrevSeq < 2 ^ 64 := by decide
  vaultKeyEpoch_lt : vaultKeyEpoch < 2 ^ 32 := by decide
  deriving DecidableEq

/-- The header of one snapshot. -/
structure SnapshotHeader where
  vaultId : VaultId
  itemId : ItemId
  snapshotId : SnapshotId
  author : DeviceId
  itemSchemaVersion : ItemSchemaVersion
  vaultKeyEpoch : ℕ
  covered : VersionVector
  vaultKeyEpoch_lt : vaultKeyEpoch < 2 ^ 32 := by decide
  deriving DecidableEq

end RizzyVault.Sync
