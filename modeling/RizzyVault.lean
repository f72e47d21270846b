import RizzyVault.Lib.TreeMap
import RizzyVault.Lib.TopRank
import RizzyVault.Lib.Supersede
import RizzyVault.Lib.Codec
import RizzyVault.Lib.HashChain
import RizzyVault.Core.FieldKey
import RizzyVault.Core.Reader
import RizzyVault.Core.Sign
import RizzyVault.Core.Bundle
import RizzyVault.Sync.Dot
import RizzyVault.Sync.VersionVector
import RizzyVault.Sync.Header
import RizzyVault.Sync.Record.Data
import RizzyVault.Sync.Record.Parse
import RizzyVault.Sync.Record.Encode
import RizzyVault.Sync.Record.RoundTrip
import RizzyVault.Sync.Merge.State
import RizzyVault.Sync.Merge.Join
import RizzyVault.Sync.Merge.Evidence
import RizzyVault.Sync.Merge.Item
import RizzyVault.Sync.Merge.Calls
import RizzyVault.Sync.Merge.Failure
import RizzyVault.Sync.Merge.Key
import RizzyVault.Sync.Merge.KeyJoin
import RizzyVault.Sync.Merge.StateJoin
import RizzyVault.Sync.Merge.Content
import RizzyVault.Sync.Merge.Claims
import RizzyVault.Sync.Merge.Steps
import RizzyVault.Sync.Merge.Honest
import RizzyVault.Sync.Merge.HonestRun
import RizzyVault.Sync.Merge.Convergence
import RizzyVault.Sync.Merge.Verified
import RizzyVault.Sync.Merge.Loss
import RizzyVault.Sync.Merge.Agreement
import RizzyVault.Sync.Merge.HonestSnapshot
import RizzyVault.Sync.Merge.NormalForm
import RizzyVault.Sync.Merge.Semilattice
import RizzyVault.Sync.Merge.Snapshot
import RizzyVault.Sync.Merge.Absorb
import RizzyVault.Sync.Merge.Basis
import RizzyVault.Sync.Merge.Rebuild
import RizzyVault.Sync.Merge.Purges
import RizzyVault.Lib.Grammar
import RizzyVault.Sync.Record.Grammar
import RizzyVault.Sync.Record.Bijection
import RizzyVault.Sync.Merge.Encoding
import RizzyVault.Sync.Compaction
import RizzyVault.Vault.Intake
import RizzyVault.Vault.Repo
import RizzyVault.Vault.Store
import RizzyVault.Core.Envelope
import RizzyVault.Vault.Upload
import RizzyVault.Vault.Rotation
import RizzyVault.Vault.Server
import RizzyVault.Vault.Writes
import RizzyVault.Vault.Frame
import RizzyVault.Vault.Chains
import RizzyVault.Vault.Repeats
import RizzyVault.Lib.Tally
import RizzyVault.Lib.Rows
import RizzyVault.Sync.Worker
import RizzyVault.Vault.Evidence
import RizzyVault.Vault.Epochs
import RizzyVault.Client.Store.Rows
import RizzyVault.Client.Store.Floors
import RizzyVault.Client.Store.Moves
import RizzyVault.Client.Store.Index
import RizzyVault.Client.Store.Run
import RizzyVault.Client.Store.Monotone
import RizzyVault.Client.Store.Dots
import RizzyVault.Client.Store.Restart
import RizzyVault.Auth.Rules
import RizzyVault.Auth.BundleChain
import RizzyVault.Lib.Text
import RizzyVault.Lib.Writer
import RizzyVault.Storage.Backup.Dump
import RizzyVault.Storage.Backup.File
import RizzyVault.Storage.Backup.Format
import RizzyVault.Storage.Backup.Bijection
import RizzyVault.Core.DeviceSet
import RizzyVault.Sync.Clock
import RizzyVault.Sync.HeaderCodec
import RizzyVault.Lib.Pruning
import RizzyVault.Sync.LiteralWorker
import RizzyVault.Sync.Covers
import RizzyVault.Match.Modes
import RizzyVault.Core.Item.Key
import RizzyVault.Core.Item.Schema
import RizzyVault.Core.Item.Order
import RizzyVault.Sync.Merge.Fields
import RizzyVault.Client.Lists
import RizzyVault.Client.OwnOps
import RizzyVault.Client.Removal
import RizzyVault.Client.ListOrder
import RizzyVault.Client.ListEdit
import RizzyVault.Client.Import
import RizzyVault.Client.ImportRun
import RizzyVault.Match.Candidates
import RizzyVault.Match.Equivalence
import RizzyVault.Client.Payload
import RizzyVault.Import.Time
import RizzyVault.Import.Text
import RizzyVault.Client.Plaintext
import RizzyVault.Import.Json
import RizzyVault.Import.JsonGrammar
import RizzyVault.Import.Xml
import RizzyVault.Auth.RateLimit
import RizzyVault.Auth.RequestWindow
import RizzyVault.Core.Normalize
import RizzyVault.Client.DeviceRecord
import RizzyVault.Core.SecretKey
import RizzyVault.Core.Base32
import RizzyVault.Core.OtpAuth
import RizzyVault.Core.Passphrase
import RizzyVault.Lib.Draws
import RizzyVault.Core.Password
import RizzyVault.Auth.Store
import RizzyVault.Auth.Trust
import RizzyVault.Auth.Change
import RizzyVault.Auth.Healing
import RizzyVault.Auth.Device
import RizzyVault.Auth.Signup
import RizzyVault.Auth.Sound
import RizzyVault.Core.Item.KeyGrammar
import RizzyVault.Core.Padding
import RizzyVault.Sync.VectorCodec
import RizzyVault.Sync.Causal.Calls
import RizzyVault.Sync.Causal.Log
import RizzyVault.Sync.Causal.Own
import RizzyVault.Lib.Closure
import RizzyVault.Lib.ChainMap
import RizzyVault.Sync.Causal.State
import RizzyVault.Sync.Causal.Invariant
import RizzyVault.Sync.Causal.Walk
import RizzyVault.Sync.Causal.Steps
import RizzyVault.Sync.Causal.Delivery
import RizzyVault.Sync.Causal.Rounds
import RizzyVault.Sync.Causal.Runs
import RizzyVault.Sync.Causal.Rescan
import RizzyVault.Sync.Causal.Plan
import RizzyVault.Sync.Causal.Commit
import RizzyVault.Sync.Causal.Cursor
import RizzyVault.Sync.Causal.Schedule
