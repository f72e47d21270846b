import Mathlib

/-!
# The tables a backup carries

A logical backup carries every table except the short-lived session state, in the order a restore
inserts them: a table comes after every table it references.

## Main definitions

* `Kind`, `Column`, `TableSpec`.
* `tables`: the backed-up tables, in restore order.

## References

* `crates/rizzy-storage/src/tables.rs`.
-/

namespace RizzyVault.Storage

/-- The storage class of a column. -/
inductive Kind
  | integer
  | text
  | blob
  deriving DecidableEq

/-- One column of a backed-up table. -/
structure Column where
  name : String
  kind : Kind
  nullable : Bool
  deriving DecidableEq

/-- One backed-up table. -/
structure TableSpec where
  name : String
  columns : List Column
  deriving DecidableEq

def col (name : String) (kind : Kind) (nullable : Bool) : Column := ⟨name, kind, nullable⟩

/-- The backed-up tables, in restore order. -/
def tables : List TableSpec :=
  [{ name := "auth_accounts"
     columns :=
       [col "id" .blob false, col "login_name" .text false, col "created_at_ms" .integer false] },
   { name := "auth_opaque_setups"
     columns :=
       [col "setup_id" .integer false, col "ake_public_key_hash" .blob false,
        col "created_at_ms" .integer false, col "retired_at_ms" .integer true] },
   { name := "auth_credentials"
     columns :=
       [col "account_id" .blob false, col "setup_id" .integer false,
        col "opaque_record" .blob false, col "kdf_id" .integer false,
        col "password_epoch" .integer false, col "e_srv" .blob false,
        col "updated_at_ms" .integer false, col "account_key_epoch" .integer true] },
   { name := "auth_identity_keys"
     columns :=
       [col "account_id" .blob false, col "identity_epoch" .integer false, col "e_id" .blob false,
        col "updated_at_ms" .integer false] },
   { name := "auth_recovery"
     columns :=
       [col "account_id" .blob false, col "recovery_epoch" .integer false, col "e_rec" .blob false,
        col "h_rec" .blob false, col "updated_at_ms" .integer false,
        col "account_key_epoch" .integer true] },
   { name := "auth_bundles"
     columns :=
       [col "account_id" .blob false, col "bundle_seq" .integer false, col "bundle" .blob false,
        col "stored_at_ms" .integer false] },
   { name := "auth_account_states"
     columns :=
       [col "account_id" .blob false, col "state_seq" .integer false, col "statement" .blob false,
        col "updated_at_ms" .integer false] },
   { name := "auth_account_settings"
     columns :=
       [col "account_id" .blob false, col "settings_seq" .integer false, col "envelope" .blob false,
        col "updated_at_ms" .integer false] },
   { name := "auth_retired_secret_keys"
     columns :=
       [col "account_id" .blob false, col "retired_key_id" .blob false, col "envelope" .blob false,
        col "stored_at_ms" .integer false] },
   { name := "auth_device_certificates"
     columns :=
       [col "account_id" .blob false, col "device_id" .blob false,
        col "identity_epoch" .integer false, col "device_kind" .integer false,
        col "expires_at_ms" .integer false, col "certificate" .blob false,
        col "suspended_at_ms" .integer true, col "stored_at_ms" .integer false] },
   { name := "auth_device_revocations"
     columns :=
       [col "account_id" .blob false, col "device_id" .blob false,
        col "last_accepted_device_seq" .integer false, col "revocation" .blob false,
        col "stored_at_ms" .integer false] },
   { name := "auth_key_grants"
     columns :=
       [col "account_id" .blob false, col "recipient_device_id" .blob false,
        col "account_key_epoch" .integer false, col "sender_device_id" .blob false,
        col "grant_record" .blob false, col "stored_at_ms" .integer false] },
   { name := "auth_totp_credentials"
     columns :=
       [col "account_id" .blob false, col "totp_credential_seq" .integer false,
        col "data_key_id" .integer false, col "sealed_secret" .blob false,
        col "last_accepted_step" .integer true, col "created_at_ms" .integer false] },
   { name := "auth_rate_limits"
     columns :=
       [col "bucket" .blob false, col "attempts" .integer false,
        col "window_started_at_ms" .integer false, col "blocked_until_ms" .integer false,
        col "expires_at_ms" .integer false] },
   { name := "auth_pending_recoveries"
     columns :=
       [col "account_id" .blob false, col "recovery_epoch" .integer false,
        col "opened_at_ms" .integer false, col "available_at_ms" .integer false] },
   { name := "vault_vaults"
     columns :=
       [col "id" .blob false, col "account_id" .blob false, col "vault_key_epoch" .integer false,
        col "next_store_seq" .integer false, col "created_at_ms" .integer false] },
   { name := "vault_self_grants"
     columns :=
       [col "vault_id" .blob false, col "account_key_epoch" .integer false,
        col "vault_key_epoch" .integer false, col "envelope" .blob false,
        col "updated_at_ms" .integer false] },
   { name := "vault_item_key_wraps"
     columns :=
       [col "vault_id" .blob false, col "item_id" .blob false, col "item_key_id" .blob false,
        col "vault_key_epoch" .integer false, col "envelope" .blob false,
        col "updated_at_ms" .integer false] },
   { name := "vault_ops"
     columns :=
       [col "vault_id" .blob false, col "device_id" .blob false, col "device_seq" .integer false,
        col "item_id" .blob false, col "op_id" .blob false, col "vault_prev_seq" .integer false,
        col "hlc" .integer false, col "item_schema_version" .integer false,
        col "vault_key_epoch" .integer false, col "header" .blob false, col "body_hash" .blob false,
        col "wrap_hash" .blob false, col "signature" .blob false, col "body" .blob true,
        col "key_wrap" .blob true, col "stored_at_ms" .integer false] },
   { name := "vault_snapshots"
     columns :=
       [col "vault_id" .blob false, col "snapshot_id" .blob false, col "item_id" .blob false,
        col "author_device_id" .blob false, col "item_schema_version" .integer false,
        col "vault_key_epoch" .integer false, col "header" .blob false, col "envelope" .blob false,
        col "wrap_hash" .blob false, col "signature" .blob false, col "key_wrap" .blob true,
        col "clamped_vv" .blob false, col "store_seq" .integer false,
        col "stored_at_ms" .integer false] },
   { name := "vault_compaction_queue"
     columns :=
       [col "vault_id" .blob false, col "item_id" .blob false, col "queued_at_ms" .integer false] },
   { name := "vault_device_cursors"
     columns :=
       [col "vault_id" .blob false, col "device_id" .blob false, col "cursor" .blob false,
        col "updated_at_ms" .integer false] }]

end RizzyVault.Storage
