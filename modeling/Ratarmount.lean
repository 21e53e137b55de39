import Ratarmount.CommitJournalAtomicity
import Ratarmount.ArchivePaths
import Ratarmount.TarCursorWalk
import Ratarmount.TarRewriteSafety
import Ratarmount.TarAppendSafety
import Ratarmount.TarWalkProgress
import Ratarmount.TarSparseMap
import Ratarmount.ExtractListing
import Ratarmount.UnionTransparency
import Ratarmount.OciImageView
import Ratarmount.OverlayTombstones
import Ratarmount.ZstdReaderRefinement
import Ratarmount.ZstdSpliceCorrect
import Ratarmount.TarWalkersAgree
import Ratarmount.TarNestedRows
import Ratarmount.GzipIndexImport
import Ratarmount.GzipReaderRefinement
import Ratarmount.LzipIndexCorrect
import Ratarmount.PatchRoundTrip
import Ratarmount.ReadaheadTransparent
import Ratarmount.ParallelDecodeCorrect
import Ratarmount.NfsReadsFresh
import Ratarmount.SevenZipMembers
import Ratarmount.Lzma2DecoderExact
import Ratarmount.OverlayConfinement
import Ratarmount.PrefixMount
import Ratarmount.FileVersions
import Ratarmount.NestedKeys
import Ratarmount.TarPaxRecords
import Ratarmount.NestedTarMembers
import Ratarmount.PieceCursors
import Ratarmount.JoinedFile
import Ratarmount.SevenZipAes
import Ratarmount.SidecarPublication
import Ratarmount.TensorPaths
import Ratarmount.WarcIndex
import Ratarmount.ExportIds
import Ratarmount.TensorRanges
