import Morpheus.CString
import Morpheus.LittleEndian
import Morpheus.Checked
import Morpheus.BinarySearch
import Morpheus.Contiguous
import Morpheus.GenerIndexReader
import Morpheus.GenerIndexValid
import Morpheus.GenerIndexSound
import Morpheus.LineInput
import Morpheus.GenerIndexSource
import Morpheus.GenerIndexText
import Morpheus.GenerIndexBuilder
import Morpheus.GenerIndexPrepared
import Morpheus.GenerIndexTables
import Morpheus.GenerIndexWriter
import Morpheus.GenerIndexDecode
import Morpheus.GenerIndexRoundTrip
import Morpheus.GenerIndexCanonical
import Morpheus.ReadStream
import Morpheus.VaxWords
import Morpheus.GkString
import Morpheus.EndIO
import Morpheus.EndingCache
import Morpheus.AnalysisStore
import Morpheus.Lexicographic
import Morpheus.IndexLines
import Morpheus.Binlook
import Morpheus.PreIndex
import Morpheus.StemIndex
import Morpheus.EndIndex
import Morpheus.IndexCaches
import Morpheus.SharedAnalyses
import Morpheus.Crasis
import Morpheus.StoredPreverb
import Morpheus.DerivationSearch
import Morpheus.PublicValues
import Morpheus.RuntimeContext
import Morpheus.Analyze
import Morpheus.Sha256
import Morpheus.GenerPreparer
import Morpheus.GenerPreparerLaw
import Morpheus.GenerPreparedText
import Morpheus.GenerPreparedAccepted
import Morpheus.GenerationService
import Morpheus.Comparison
import Morpheus.GenerationNormalizer
import Morpheus.Generate
import Morpheus.EndTables
import Morpheus.StoredDialect
import Morpheus.EndingOrder
import Morpheus.EndingStrings
import Morpheus.EndingRetrieval
import Morpheus.EndingExit
import Morpheus.StemTypes
import Morpheus.DerivationKeys
import Morpheus.EarlyReturn
import Morpheus.SpellingRetries
import Morpheus.SpellingRank
import Morpheus.SpellingTermination
import Morpheus.SpellingDictionary
import Morpheus.SpellingLeftovers
import Morpheus.RetrySteps
import Morpheus.LatinRetries
import Morpheus.FreshRetries
import Morpheus.RetryCounts
import Morpheus.CountedRetries
import Morpheus.SpellingWindow
import Morpheus.OneShot
import Morpheus.LostCounts
import Morpheus.LostActivations
import Morpheus.LostElisions
import Morpheus.ReturnValues
import Morpheus.StoredFlags
import Morpheus.StoreInvariant
import Morpheus.StoreOrder
import Morpheus.CompoundLemma
import Morpheus.LemmaCount
import Morpheus.LatinConsonants
import Morpheus.DictionaryFrame
import Morpheus.StringFrame
import Morpheus.InputLength
import Morpheus.PreverbCombination
import Morpheus.PreverbSearch
import Morpheus.DerivationExpanders
import Morpheus.MorphKeys
import Morpheus.KeyNames
import Morpheus.KeyText
import Morpheus.KeyReadBack
import Morpheus.KeyMasks
import Morpheus.KeyRoundTrip
import Morpheus.Syllables
import Morpheus.RecessiveAccent
import Morpheus.StandWord
import Morpheus.Augments
import Morpheus.EndingAccents
import Morpheus.RunScan
import Morpheus.Euphony
import Morpheus.PreverbAttachment
import Morpheus.Dissimilation
import Morpheus.DialectFilter
import Morpheus.VisitedForms
import Morpheus.KeyLookup
import Morpheus.Fips180
import Morpheus.Sha256Context
import Morpheus.Sha256Standard
import Morpheus.FieldStores
import Morpheus.PreIndexCodec
import Morpheus.CodeUnits
import Morpheus.GenerIndexScript
import Morpheus.GenerIndexScriptParse
import Morpheus.GenerIndexScriptFile
import Morpheus.NominalSearch
import Morpheus.Rewriting
import Morpheus.EndRewriting
import Morpheus.TarArchive
import Morpheus.Letters
import Morpheus.FormBuilding
import Morpheus.FormSpelling
import Morpheus.FormGeneration
import Morpheus.FormMatching
import Morpheus.AnalysisSpelling
