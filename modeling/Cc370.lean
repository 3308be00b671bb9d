import Cc370.Lmod370
import Cc370.Ld370.OneDefinition
import Cc370.Ld370.Relocatable
import Cc370.Ld370.AddressConstants
import Cc370.Ld370.Loading
import Cc370.Ld370.RecordStream
import Cc370.As370.ObjectDeck
import Cc370.As370.ExactRelocation
import Cc370.As370.DummyTreatment
import Cc370.As370.ConditionValue
import Cc370.As370.SetSymbols
import Cc370.As370.SetScope
import Cc370.Dasm370.Section
import Cc370.Dasm370.Tiling
import Cc370.Lib.Tiles
import Cc370.Lib.Nesting
import Cc370.As370.AudibleExit
import Cc370.As370.ExpansionHalts
import Cc370.Dasm370.Boundaries
import Cc370.Ar370.Archive
import Cc370.As370.AddressText
import Cc370.Lib.Slices
import Cc370.Ld370.ArchiveReader
import Cc370.Ar370.ReadBack
import Cc370.Ar370.Exports
import Cc370.Ld370.Autocall
import Cc370.Ld370.Closure
import Cc370.Lib.Tracks
import Cc370.Unload
import Cc370.Ld370.Unload
import Cc370.Xmit370.Create
import Cc370.Geometry
import Cc370.Directory
import Cc370.Ld370.Iebcopy
import Cc370.Ld370.ReadBack
import Cc370.Ld370.Bare
import Cc370.Ld370.Repack
import Cc370.Ld370.CesdEntries
import Cc370.Ld370.LinkImage
import Cc370.Ld370.LibraryDirectory
import Cc370.RldItems
import Cc370.Ld370.RldRecords
import Cc370.Ld370.FetchBuffer
import Cc370.Ar370.Listing
import Cc370.Lib.Pairing
import Cc370.Xmit370.TextLines
import Cc370.Lib.Packing
import Cc370.Netdata
import Cc370.Xmit370.Transmission
import Cc370.Xmit370.LogicalRecords
import Cc370.Xmit370.Capacity
import Cc370.Ld370.Spans
import Cc370.Ld370.Placement
import Cc370.Cmplmd370.Compare
import Cc370.Cmplmd370.Difin
import Cc370.Cmplmd370.Clusters
import Cc370.Cmplmd370.DifinFormat
import Cc370.Cmplmd370.Difout
import Cc370.Cmplmd370.Fixpoint
import Cc370.Ld370.DeckReads
import Cc370.LmodScan
import Cc370.Xmit370.ReadXmit
import Cc370.Ld370.MemberReads
import Cc370.Xmit370.Payload
import Cc370.InBounds
import Cc370.As370.Usings
import Cc370.As370.UsingsLog
import Cc370.As370.Diagnostics
import Cc370.As370.ReturnCode
import Cc370.As370.FixedNominal
import Cc370.Lib.HalfUp
import Cc370.As370.FixedParse
import Cc370.As370.FixedRounding
import Cc370.As370.BigNumber
import Cc370.As370.EmitFloat
import Cc370.Lib.HexFloat
import Cc370.As370.FloatParse
import Cc370.As370.FloatRounding
import Cc370.As370.FloatNearest
import Cc370.As370.SourceCards
import Cc370.Dasm370.Patch
import Cc370.Dasm370.Align
import Cc370.I370.HalfwordInsns
import Cc370.I370.Halfword
import Cc370.I370.HalfwordRule
import Cc370.Dasm370.AlignReport
import Cc370.Dasm370.AlignSides
import Cc370.Runtime.Divide
import Cc370.Runtime.Trapv
import Cc370.I370.DivideRule
import Cc370.Runtime.HexConversion
import Cc370.I370.ExternalNames
import Cc370.As370.DcCards
import Cc370.I370.AsciiOutput
import Cc370.I370.AsciiCards
import Cc370.Lib.GuardDigit
import Cc370.I370.FloatConversion
import Cc370.Lib.Fields
import Cc370.Runtime.BitOps
import Cc370.Lib.Worklist
import Cc370.Dasm370.Reach
import Cc370.Idrdump370.Chain
import Cc370.Idrdump370.Linked
import Cc370.Lib.Buckets
import Cc370.As370.LiteralPool
import Cc370.As370.EmitDecimal
import Cc370.As370.BaseRegister
import Cc370.File370.Detect
