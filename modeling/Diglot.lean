import Diglot.Main
import Diglot.Proofs.Search.Anchor
import Diglot.Proofs.Conversion.Classes
import Diglot.Proofs.Expression.Deferral
import Diglot.Proofs.Reduction.AtomicMatching
import Diglot.Proofs.Reduction.ExactUnrolling
import Diglot.Proofs.Reduction.ExactUnfolding
import Diglot.Proofs.Reduction.ExactGrouping
import Diglot.Proofs.Source.Directive
import Diglot.Proofs.Source.Interval
import Diglot.Proofs.Conversion.NewestTarget
import Diglot.Proofs.Expression.Succession
import Diglot.Proofs.Conversion.CaseFlag
import Diglot.Proofs.Expression.NativeCaptures
import Diglot.Proofs.Unicode.LooseNames
import Diglot.Proofs.Source.Progress
import Diglot.Proofs.Emitted.Lossless
import Diglot.Proofs.Emitted.Pairing
