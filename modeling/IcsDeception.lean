import IcsDeception.Binding
import IcsDeception.LockDiscipline
import IcsDeception.StateAgreement
import IcsDeception.Repair
import IcsDeception.Interleaving
import IcsDeception.Tampering
import IcsDeception.HostileInput
import IcsDeception.CanonicalForm
import IcsDeception.FileVerification
import IcsDeception.EnvelopeRoundTrip
import IcsDeception.Registry
import IcsDeception.ManifestBinding
import IcsDeception.ArchiveSoundness
import IcsDeception.StateFile
import IcsDeception.Lib.Json.Torn
import IcsDeception.ArchiveRoundTrip
import IcsDeception.KeyLifecycle
import IcsDeception.Lib.Framing
import IcsDeception.Modbus.Agreement
import IcsDeception.Rotation
import IcsDeception.LiveArchive
import IcsDeception.Revocation
import IcsDeception.Replays
import IcsDeception.TrackingCap
import IcsDeception.EnvelopeGrammar
import IcsDeception.SignatureText
import IcsDeception.RecoveryOutcome
import IcsDeception.Modbus.Alerts
import IcsDeception.Decoy.Secrecy
import IcsDeception.Decoy.Sealing
import IcsDeception.KeyTable
import IcsDeception.Registration
import IcsDeception.KeyImport
import IcsDeception.KeyOrder
import IcsDeception.Lib.Json.Reread
import IcsDeception.RegistryRoundTrip
import IcsDeception.NodeIdentity
import IcsDeception.Decompression
import IcsDeception.Decryption
import IcsDeception.Shielding
import IcsDeception.Appending
import IcsDeception.SignLog
import IcsDeception.Lib.Json.Depth
import IcsDeception.Lib.Json.Shorter
import IcsDeception.Publisher
import IcsDeception.Preparation
import IcsDeception.Lib.Expand
import IcsDeception.KeyDerivation
import IcsDeception.BackendSelection
import IcsDeception.Lib.CalendarOrder
import IcsDeception.TimestampOrder
import IcsDeception.Modbus.Poller
import IcsDeception.Modbus.RegisterFile
import IcsDeception.Lib.Json.Spelled
import IcsDeception.Decoy.Injection
import IcsDeception.ReplayManager
import IcsDeception.StateSessions
import IcsDeception.JournalFile
import IcsDeception.Faults
import IcsDeception.FailingAppend
import IcsDeception.Rollback
import IcsDeception.ReadBack
import IcsDeception.Sink
import IcsDeception.SignedLog
import IcsDeception.Emission
