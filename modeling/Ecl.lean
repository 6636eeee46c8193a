import Ecl.HashEqualpAgreement
import Ecl.BindingStackCorrectness
import Ecl.NonLocalExits
import Ecl.NumberEqualp
import Ecl.WeakHashCorrectness
import Ecl.HashTableTermination
import Ecl.HashTableIteration
import Ecl.PackageUniqueness
import Ecl.PackageDeletion
import Ecl.PackageHomeCorrectness
import Ecl.ReadtableIndependence
import Ecl.NumberTokens
import Ecl.UnreadTransparency
import Ecl.ElementRoundTrip
import Ecl.BinaryRoundTrip
import Ecl.ConcatenatedStreams
import Ecl.EchoStreams
import Ecl.MailboxCorrectness
import Ecl.ForwardingStreams
import Ecl.SequenceRemovalCorrectness
import Ecl.SortingCorrectness
import Ecl.BackquoteCorrectness
import Ecl.TransferIndependence
import Ecl.LockCorrectness
import Ecl.SemaphoreCorrectness
import Ecl.BarrierCorrectness
import Ecl.ClassPrecedenceCorrectness
import Ecl.MigrationCorrectness
import Ecl.DispatchCoherence
import Ecl.SubtypeHistories
import Ecl.MaskMatching
import Ecl.PathnameCase
import Ecl.KeywordArguments
import Ecl.StackFrames
import Ecl.IntegerSquareRoot
import Ecl.DuplicateRemoval
import Ecl.ByteOrderMarks
import Ecl.SkippedOctets
import Ecl.StringMeasuring
import Ecl.MethodCombination
import Ecl.RationalPowers
import Ecl.StringCase
import Ecl.VectorReversal
import Ecl.ArrayReplacement
import Ecl.UninternedSymbols
import Ecl.CharacterNames
import Ecl.BitArrays
import Ecl.StringOutput
import Ecl.SequenceOutput
import Ecl.MidnumCorrectness
import Ecl.PointerStacks
import Ecl.IntegerReader
import Ecl.DecimalFloats
import Ecl.SerializerDisplacement
import Ecl.ListLength
