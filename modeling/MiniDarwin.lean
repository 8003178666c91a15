import MiniDarwin.Effects.Program
import MiniDarwin.Posix.Tree
import MiniDarwin.Posix.Walk
import MiniDarwin.Posix.Calls
import MiniDarwin.Posix.Rules
import MiniDarwin.Installer.Basic
import MiniDarwin.Installer.Util
import MiniDarwin.Installer.Resolve
import MiniDarwin.Installer.Preflight
import MiniDarwin.Installer.Extract
import MiniDarwin.Installer.Transaction
import MiniDarwin.Installer.Live
import MiniDarwin.Installer.Quiet
import MiniDarwin.Installer.Growth
import MiniDarwin.Installer.Links
import MiniDarwin.Installer.Component
import MiniDarwin.Installer.Removal
import MiniDarwin.Installer.Stage
import MiniDarwin.Installer.Fill
import MiniDarwin.Installer.Recover
import MiniDarwin.Installer.Publish
import MiniDarwin.Installer.Crash
import MiniDarwin.Installer.History
import MiniDarwin.Installer.Published
import MiniDarwin.Installer.Undo
import MiniDarwin.Installer.Confinement
import MiniDarwin.Installer.ScriptRead
import MiniDarwin.Installer.Nesting
import MiniDarwin.Installer.Placement
import MiniDarwin.Installer.Collision
import MiniDarwin.Effects.Loop
import MiniDarwin.Launchd.Plist
import MiniDarwin.Launchd.Job
import MiniDarwin.Launchd.Calls
import MiniDarwin.Launchd.Daemon
import MiniDarwin.Launchd.Discipline
import MiniDarwin.Launchd.Invariant
import MiniDarwin.Launchd.Lifecycle
import MiniDarwin.Launchd.Shutdown
import MiniDarwin.Launchd.Timing
import MiniDarwin.Launchd.Database
import MiniDarwin.Launchd.Overrides
import MiniDarwin.Launchd.Sockets
import MiniDarwin.Launchd.Ownership
import MiniDarwin.Launchd.Codec
import MiniDarwin.Launchd.Markup
import MiniDarwin.Launchd.Roundtrip
import MiniDarwin.Launchd.Characters
import MiniDarwin.Launchd.Connection
import MiniDarwin.Launchd.Spawn
import MiniDarwin.Launchd.Events
import MiniDarwin.Xnu.TrustCache
import MiniDarwin.Xnu.TrustRuntime
import MiniDarwin.Xnu.TrustQuery
import MiniDarwin.Xnu.Digest
import MiniDarwin.Xnu.Drbg
import MiniDarwin.Data.Search
import MiniDarwin.Data.Numerals
import MiniDarwin.Installer.Versions
import MiniDarwin.Archive.Basic
import MiniDarwin.Archive.Cpio
import MiniDarwin.Archive.Paths
import MiniDarwin.Archive.Bounds
import MiniDarwin.Archive.Encode
import MiniDarwin.Archive.Reading
import MiniDarwin.Archive.Inflate
import MiniDarwin.Archive.Xar
import MiniDarwin.Archive.Contents
import MiniDarwin.Archive.Package
import MiniDarwin.Archive.Selection
import MiniDarwin.Archive.Sizes
import MiniDarwin.Archive.LinkCheck
import MiniDarwin.Data.Limited
import MiniDarwin.Archive.Changes
import MiniDarwin.Installer.Inventory
import MiniDarwin.Archive.Choices
import MiniDarwin.Data.Arena
import MiniDarwin.Data.Grouping
import MiniDarwin.Open.Tables
import MiniDarwin.Open.Serve
import MiniDarwin.Open.Choice
import MiniDarwin.Open.Pointers
import MiniDarwin.Open.Delivery
import MiniDarwin.Open.Channel
import MiniDarwin.Open.Request
import MiniDarwin.Data.Patterns
import MiniDarwin.Data.Forest
import MiniDarwin.Rootfs.Yaml
import MiniDarwin.Rootfs.Scalars
import MiniDarwin.Rootfs.Schema
import MiniDarwin.Rootfs.Manifest
import MiniDarwin.Rootfs.Entries
import MiniDarwin.Rootfs.Merkle
import MiniDarwin.Rootfs.TreeOrder
import MiniDarwin.Rootfs.Inline
import MiniDarwin.Rootfs.Blocks
import MiniDarwin.Rootfs.RoundTrip
import MiniDarwin.Rootfs.Spec
import MiniDarwin.Rootfs.Readable
import MiniDarwin.Rootfs.Normal
import MiniDarwin.Rootfs.Load
import MiniDarwin.Rootfs.Files
import MiniDarwin.Rootfs.Stamp
import MiniDarwin.Rootfs.Targets
import MiniDarwin.Rootfs.Digests
import MiniDarwin.Rootfs.Rebuilt
import MiniDarwin.Rootfs.Loaded
import MiniDarwin.Rootfs.Written
import MiniDarwin.Rootfs.Identity
import MiniDarwin.Rootfs.Compare
import MiniDarwin.Rootfs.Exact
import MiniDarwin.Rootfs.Extract
import MiniDarwin.Rootfs.Verify
import MiniDarwin.Rootfs.View
import MiniDarwin.Rootfs.Unpacked
import MiniDarwin.Rootfs.Artifact
import MiniDarwin.Rootfs.Release
import MiniDarwin.Installer.Consists
import MiniDarwin.Installer.Lineage
import MiniDarwin.Posix.Times
import MiniDarwin.Installer.Timeless
import MiniDarwin.Installer.Times
import MiniDarwin.Installer.Payload
import MiniDarwin.Installer.Target
import MiniDarwin.Archive.Normalize
import MiniDarwin.Archive.Integers
import MiniDarwin.Xnu.Chunking
import MiniDarwin.Data.Rejection
import MiniDarwin.Xnu.Uniform
import MiniDarwin.Data.Chaining
import MiniDarwin.Xnu.Cbc
import MiniDarwin.Data.Utf8
import MiniDarwin.Open.Text
import MiniDarwin.Open.Urls
import MiniDarwin.Open.Client
import MiniDarwin.Open.Reserve
import MiniDarwin.Data.Slices
import MiniDarwin.Boot.Disk
import MiniDarwin.Boot.Gpt
import MiniDarwin.Xnu.Relocations
import MiniDarwin.Xnu.Relocated
import MiniDarwin.Xnu.Collection
import MiniDarwin.Xnu.Compacted
import MiniDarwin.Data.Base64
import MiniDarwin.Roots.Pem
import MiniDarwin.Roots.Trusted
import MiniDarwin.Archive.Limits
