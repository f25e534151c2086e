import GrammarFuzz.Main
import GrammarFuzz.Random.Script
import GrammarFuzz.Proofs.Progress
import GrammarFuzz.Proofs.Livelock
import GrammarFuzz.Proofs.Recording
import GrammarFuzz.Proofs.Offers
import GrammarFuzz.Proofs.Edits
import GrammarFuzz.Proofs.Refinement
import GrammarFuzz.Proofs.FullCoverage
import GrammarFuzz.Proofs.Completeness
import GrammarFuzz.Proofs.Documents
import GrammarFuzz.Proofs.Closing
import GrammarFuzz.Proofs.Uncached
import GrammarFuzz.Proofs.Verdicts
import GrammarFuzz.Proofs.DeadEnds
import GrammarFuzz.Proofs.BoundedReach
import GrammarFuzz.Proofs.Gathering
import GrammarFuzz.Proofs.Detours
import GrammarFuzz.Proofs.PrivateCopies
import GrammarFuzz.Proofs.Contexts
import GrammarFuzz.Proofs.CopyLevels
import GrammarFuzz.Proofs.GrowthPhase
import GrammarFuzz.Proofs.Admission
import GrammarFuzz.Proofs.Reduction
import GrammarFuzz.Proofs.SingleStep
import GrammarFuzz.Proofs.Decomposition
import GrammarFuzz.Proofs.KeyForms
import GrammarFuzz.Proofs.Preferences
import GrammarFuzz.Proofs.Untried
import GrammarFuzz.Proofs.Campaigns
import GrammarFuzz.Proofs.FlatGrammars
import GrammarFuzz.Proofs.Traversals
import GrammarFuzz.Proofs.Confinement
import GrammarFuzz.Proofs.Arguments
import GrammarFuzz.Proofs.Requests
import GrammarFuzz.Proofs.Splicing
import GrammarFuzz.Proofs.FreeNames
