import Powehi.Semantics.Program
import Powehi.Semantics.Triple
import Powehi.Semantics.Uses
import Powehi.Semantics.CommitPoint
import Powehi.Semantics.Trace
import Powehi.Semantics.Fallible
import Powehi.Semantics.Slots
import Powehi.Codec.Bytes
import Powehi.Codec.ByteMap
import Powehi.Codec.Json
import Powehi.Store.Crypto
import Powehi.Store.Types
import Powehi.Store.Directory
import Powehi.Store.Device
import Powehi.Store.Rules
import Powehi.Store.Record
import Powehi.Store.Keys
import Powehi.Store.Manifest
import Powehi.Store.Profile
import Powehi.Store.Recover
import Powehi.Store.Journal
import Powehi.Store.Switch
import Powehi.Store.Open
import Powehi.Store.Rekey
import Powehi.Store.Contents
import Powehi.Store.Commit
import Powehi.Store.Mutation
import Powehi.Store.Operations
import Powehi.Store.Loading
import Powehi.Store.Opening
import Powehi.Store.KeySlots
import Powehi.Store.Sessions
import Powehi.Store.Staging
import Powehi.Store.Stored
import Powehi.Store.RollForward
import Powehi.Store.CrashConsistency
import Powehi.Store.Agreement
import Powehi.Store.RekeyAtomicity
import Powehi.Store.Rollback
import Powehi.Store.ManifestFormat
import Powehi.Store.Settling
import Powehi.Semantics.Pool
import Powehi.Semantics.Table
import Powehi.Server.Database
import Powehi.Server.Repository
import Powehi.Server.Mesh
import Powehi.Server.Calls
import Powehi.Server.CommitOrder
import Powehi.Server.Regions
import Powehi.Server.Membership
import Powehi.Semantics.Past
import Powehi.Server.Paging
import Powehi.Server.Broadcasts
import Powehi.Server.Cursor
import Powehi.Semantics.Expiring
import Powehi.Semantics.Obligation
import Powehi.Auth.Cache
import Powehi.Auth.Services
import Powehi.Auth.Calls
import Powehi.Auth.Effects
import Powehi.Auth.Revocation
import Powehi.Auth.Ownership
import Powehi.Auth.Retries
import Powehi.Auth.Invites
import Powehi.Server.References
import Powehi.Backend.System
import Powehi.Backend.Removals
import Powehi.Hub.Sockets
import Powehi.Hub.Notifications
import Powehi.Client.Types
import Powehi.Client.Libraries
import Powehi.Client.Profile
import Powehi.Client.Records
import Powehi.Client.Welcome
import Powehi.Client.Junk
import Powehi.Client.Inbox
import Powehi.Client.Message
import Powehi.Client.Rules
import Powehi.Client.Toy
import Powehi.Client.Reading
import Powehi.Client.Ordering
import Powehi.Client.KeyPackages
import Powehi.Client.Joining
import Powehi.Client.Pruning
import Powehi.Client.KeySafety
import Powehi.Wire.Bodies
import Powehi.Store.WrongSecret
import Powehi.Store.Recovery
import Powehi.Store.Legacy
import Powehi.Store.Upgrade
import Powehi.Store.ImportWindow
import Powehi.Store.Custody
import Powehi.Identity.Generations
import Powehi.Codec.Blocks
import Powehi.Codec.Utf8
import Powehi.Codec.Uuid
import Powehi.Codec.JsonReader
import Powehi.Media.Encryption
import Powehi.Media.Attachment
import Powehi.Codec.Chars
import Powehi.Media.Parked
import Powehi.Codec.Bits
import Powehi.Identity.Mnemonic
import Powehi.Mls.Group
import Powehi.Mls.GroupCommit
import Powehi.Mls.PairCommit
import Powehi.Client.Pairs
import Powehi.Identity.SafetyNumber
import Powehi.Client.Verify
import Powehi.Server.Pending
import Powehi.Server.Provenance
import Powehi.Server.AckRace
import Powehi.Server.Forwarding
import Powehi.Web.Deferral
import Powehi.Media.RegionOwner
