import ImportFlattening.Main
import ImportFlattening.Proofs.CurrentOutput
import ImportFlattening.Proofs.WireRoundTrip
import ImportFlattening.Proofs.GreatestOrder
import ImportFlattening.Proofs.PathSegments
import ImportFlattening.Proofs.Renaming
import ImportFlattening.Proofs.Relocation
import ImportFlattening.Proofs.JsonGrammar
import ImportFlattening.Proofs.MemberEdits
import ImportFlattening.Proofs.DiskWrites
import ImportFlattening.Proofs.OutputAgreement
import ImportFlattening.Proofs.CanonicalNames
import ImportFlattening.Proofs.ChapterLines
import ImportFlattening.Proofs.CycleReport
import ImportFlattening.Proofs.RelativeResolution
import ImportFlattening.Proofs.VerbatimSpecifiers
import ImportFlattening.Proofs.CycleChain
import ImportFlattening.Proofs.ContainedWrites
import ImportFlattening.Proofs.PeelingCounts
import ImportFlattening.Proofs.WalkState
import ImportFlattening.Proofs.WalkRounds
import ImportFlattening.Proofs.OutputPaths
import ImportFlattening.Proofs.OutputPlaces
import ImportFlattening.Proofs.GraphHistory
import ImportFlattening.Proofs.OutputCollisions
