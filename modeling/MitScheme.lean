import MitScheme.Compiler.BittopSoundness
import MitScheme.Compiler.BittopTermination
import MitScheme.Compiler.RegmapRuns
import MitScheme.Compiler.RlifeExecution
import MitScheme.Microcode.BignumDivision
import MitScheme.Microcode.BignumStreams
import MitScheme.Microcode.BignumToDouble
import MitScheme.Microcode.IntegerBitwise
import MitScheme.Microcode.LookupLinks
import MitScheme.Microcode.LookupTermination
import MitScheme.Runtime.Base64Proof
import MitScheme.Runtime.Binhex40Proof
import MitScheme.Runtime.BitFields
import MitScheme.Runtime.ChrsetComplement
import MitScheme.Runtime.Division
import MitScheme.Runtime.Qsort
import MitScheme.Runtime.QuotedPrintablePackets
import MitScheme.Runtime.QuotedPrintableProof
import MitScheme.Runtime.OrderedMaps
import MitScheme.Runtime.RegsexpPorts
import MitScheme.Runtime.SyntaxOutputProof
import MitScheme.Runtime.SyntaxRulesProof
import MitScheme.Runtime.ThreadQueueProof
import MitScheme.Runtime.WeakHashTableGrowth
import MitScheme.Runtime.WideCodecsProof
import MitScheme.Runtime.WindRuns
import MitScheme.Runtime.WtTreeMerging
import MitScheme.Runtime.WtTreeRank
import MitScheme.Microcode.UuoLinksProof
import MitScheme.Runtime.SegmentationProof
import MitScheme.Runtime.SplittingProof
import MitScheme.Sf.FreeVariablesProof
import MitScheme.Sf.IntegrationProof
import MitScheme.Runtime.SimplestRational
import MitScheme.Runtime.NumeralsProof
import MitScheme.Runtime.RatioToFlonum
import MitScheme.Runtime.RegsexpForms
import MitScheme.Microcode.RegexGap
import MitScheme.Microcode.RegexRegisters
import MitScheme.Microcode.RegexTermination
import MitScheme.Compiler.IntervalsDetermined
import MitScheme.Microcode.BignumHalfDigits
import MitScheme.Runtime.Lists
