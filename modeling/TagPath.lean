import TagPath.Main
import TagPath.Query
import TagPath.Proofs.Indentation
import TagPath.Proofs.CoveredMatches
import TagPath.Proofs.RepeatedNames
import TagPath.Proofs.StepGrammar
import TagPath.Proofs.Addressing
import TagPath.Proofs.ReaderRuns
import TagPath.Proofs.AllOrNothing
import TagPath.Proofs.Rearrangement
import TagPath.Proofs.Narrowing
import TagPath.Proofs.PredicateLookup
import TagPath.Proofs.SeparateRuns
import TagPath.Proofs.PathComposition
import TagPath.Proofs.WrittenSteps
import TagPath.Proofs.GroupedNumbers
import TagPath.Proofs.LineBreaks
import TagPath.Proofs.OffsetReading
