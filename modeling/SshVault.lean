import SshVault.Convergence
import SshVault.Dominance
import SshVault.Relay.Pull
import SshVault.Relay.Binding
import SshVault.Relay.Effects
import SshVault.Relay.Revocation
import SshVault.Relay.Replay
import SshVault.Relay.Bootstrap
import SshVault.Relay.Seen
import SshVault.Relay.Log
import SshVault.Relay.Tenancy
import SshVault.Lib.PrefixCode
import SshVault.Vault.LogFile
import SshVault.Vault.Keys
import SshVault.Vault.Snapshots
import SshVault.Vault.Handles
import SshVault.Vault.Clocks
import SshVault.Vault.Tags
import SshVault.Client.Devices
import SshVault.Client.Wraps
import SshVault.Client.Recipients
import SshVault.Client.Agreement
import SshVault.Client.Recovery
import SshVault.Rendering
import SshVault.Forwards
import SshVault.Payloads
import SshVault.Readable
import SshVault.Vault.KeyedMap
import SshVault.Vault.Calls
import SshVault.Vault.MapRuns
import SshVault.Edits
import SshVault.DisjointEdits
import SshVault.Vault.Metadata
import SshVault.Client.Failures
import SshVault.MergeSpec
import SshVault.Vault.Transfer
import SshVault.Vault.LocalForwards
import SshVault.Vault.Exhaustion
import SshVault.Vault.Removal
import SshVault.Vault.WellFormed
import SshVault.IncludeLine
import SshVault.ParsedConfig
import SshVault.Relay.Atomic
import SshVault.Vault.Contents
import SshVault.Vault.RoundTrip
import SshVault.Vault.Incremental
import SshVault.Vault.Phrases
import SshVault.Relay.Advances
import SshVault.Relay.Integers
import SshVault.Install
import SshVault.Client.Addressees
import SshVault.Client.Unblocked
import SshVault.Client.Cursor
import SshVault.Client.Recovered
import SshVault.Client.Quiescence
import SshVault.Watching
import SshVault.Shown
import SshVault.Apply
