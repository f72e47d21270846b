import RizzyVault.Lib.Words

/-!
# Identifiers, sequence numbers, dots and clock values

The scalar types of the sync engine. An identifier is 16 bytes, compared bytewise; read as a
big-endian number its order is the order of numbers below `2 ^ 128`, and it is kept as that
number. A dot names one operation: the device that wrote it and that device's non-zero 64-bit
sequence number. Dots are ordered by device, then by sequence number.

## Main definitions

* `Id`, `DeviceId`, `ItemId`, `VaultId`, `OpId`, `SnapshotId`, `SymmetricKeyId`,
  `RestoreGeneration`, `AccountId`.
* `NonZeroU64`, `Dot`, `Hlc`.

## References

* `crates/rizzy-core/src/ids.rs`, `crates/rizzy-sync/src/dot.rs`,
  `crates/rizzy-sync/src/hlc.rs`.
-/

namespace RizzyVault.Sync

/-! ### Identifiers -/

/-- The kinds of 16-byte identifier. They never mix. -/
inductive IdKind
  | device
  | item
  | vault
  | op
  | snapshot
  | symmetricKey
  | restoreGeneration
  | account

/-- A 16-byte identifier of kind `κ`, as the big-endian number its bytes spell. -/
structure Id (κ : IdKind) where
  raw : Fin (2 ^ 128)
  deriving DecidableEq

instance {κ : IdKind} : LinearOrder (Id κ) :=
  LinearOrder.lift' Id.raw fun a b h => by cases a; cases b; cases h; rfl

abbrev DeviceId := Id .device
abbrev ItemId := Id .item
abbrev VaultId := Id .vault
abbrev OpId := Id .op
abbrev SnapshotId := Id .snapshot
abbrev SymmetricKeyId := Id .symmetricKey
abbrev RestoreGeneration := Id .restoreGeneration
abbrev AccountId := Id .account

instance transCmp_id (κ : IdKind) : Std.TransCmp (compare : Id κ → Id κ → Ordering) :=
  inferInstance

/-! ### Sequence numbers and clock values -/

/-- A non-zero 64-bit number. -/
structure NonZeroU64 where
  val : ℕ
  pos : 0 < val
  lt : val < 2 ^ 64

namespace NonZeroU64

@[ext]
theorem ext {a b : NonZeroU64} (h : a.val = b.val) : a = b := by
  cases a; cases b; cases h; rfl

instance : DecidableEq NonZeroU64 := fun a b =>
  decidable_of_iff (a.val = b.val) ⟨ext, congrArg val⟩

instance : LinearOrder NonZeroU64 := LinearOrder.lift' val fun _ _ h => ext h

theorem le_iff {a b : NonZeroU64} : a ≤ b ↔ a.val ≤ b.val := Iff.rfl

theorem lt_iff {a b : NonZeroU64} : a < b ↔ a.val < b.val := Iff.rfl

theorem monotone_val : Monotone val := fun _ _ h => h

@[simp]
theorem val_max (a b : NonZeroU64) : (max a b).val = max a.val b.val := monotone_val.map_max

@[simp]
theorem val_min (a b : NonZeroU64) : (min a b).val = min a.val b.val := monotone_val.map_min

end NonZeroU64

/-- A hybrid logical clock value: 48 bits of milliseconds over a 16-bit counter, compared as one
64-bit number. -/
structure Hlc where
  raw : Fin (2 ^ 64)
  deriving DecidableEq

instance : LinearOrder Hlc :=
  LinearOrder.lift' Hlc.raw fun a b h => by cases a; cases b; cases h; rfl

/-! ### Dots -/

/-- One operation: the device that wrote it and its sequence number on that device. -/
structure Dot where
  deviceId : DeviceId
  seqNonzero : NonZeroU64
  deriving DecidableEq

namespace Dot

/-- The sequence number as a plain number. -/
def seq (d : Dot) : ℕ := d.seqNonzero.val

/-- The dot of `device` at `seq`, none for sequence number zero or one past 64 bits. -/
def new (device : DeviceId) (seq : ℕ) : Option Dot :=
  if h : 0 < seq ∧ seq < 2 ^ 64 then some ⟨device, seq, h.1, h.2⟩ else none

@[simp]
theorem seq_mk (device : DeviceId) (s : NonZeroU64) : (⟨device, s⟩ : Dot).seq = s.val := rfl

theorem seq_pos (d : Dot) : 0 < d.seq := d.seqNonzero.pos

theorem seq_lt (d : Dot) : d.seq < 2 ^ 64 := d.seqNonzero.lt

@[ext]
theorem ext {a b : Dot} (hd : a.deviceId = b.deviceId) (hs : a.seq = b.seq) : a = b := by
  obtain ⟨d, s⟩ := a
  obtain ⟨d', s'⟩ := b
  cases hd
  exact congrArg _ (NonZeroU64.ext hs)

/-- The device, then the sequence number: the order of the encoded bytes. -/
instance : LinearOrder Dot :=
  LinearOrder.lift' (fun d => toLex (d.deviceId, d.seqNonzero)) fun a b h => by
    obtain ⟨d, s⟩ := a
    obtain ⟨d', s'⟩ := b
    cases toLex.injective h
    rfl

@[simp]
theorem new_eq_some {device : DeviceId} {seq : ℕ} {d : Dot} :
    new device seq = some d ↔ d.deviceId = device ∧ d.seq = seq := by
  unfold new
  split_ifs with h
  · rw [Option.some.injEq]
    constructor
    · rintro rfl
      exact ⟨rfl, rfl⟩
    · rintro ⟨hd, hs⟩
      exact Dot.ext hd.symm hs.symm
  · simp only [false_iff, not_and]
    rintro - rfl
    exact h ⟨d.seq_pos, d.seq_lt⟩

end Dot

end RizzyVault.Sync
