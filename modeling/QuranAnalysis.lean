import QuranAnalysis.Corpus.Conserve
import QuranAnalysis.Corpus.Export
import QuranAnalysis.Corpus.Respell
import QuranAnalysis.Corpus.Outcomes
import QuranAnalysis.Corpus.WellFormed
import QuranAnalysis.Primitives.RunningText
import QuranAnalysis.Primitives.Forms
import QuranAnalysis.Primitives.Letters
import QuranAnalysis.Primitives.Additive
import QuranAnalysis.Primitives.Variants
import QuranAnalysis.Primitives.Totals
import QuranAnalysis.Morphology.Guard
import QuranAnalysis.Morphology.Records
import QuranAnalysis.Morphology.Counts
import QuranAnalysis.Morphology.Format
import QuranAnalysis.Morphology.Outcomes
import QuranAnalysis.Morphology.Export
import QuranAnalysis.Claims.Stability
import QuranAnalysis.Claims.ReadBack
import QuranAnalysis.Claims.Consistent
import QuranAnalysis.Claims.Position
import QuranAnalysis.Claims.Variants
import QuranAnalysis.Claims.Registration
import QuranAnalysis.Claims.Runs
import QuranAnalysis.Claims.Register
import QuranAnalysis.Claims.Main
import QuranAnalysis.Claims.Edits
