import SeismicTree.Main
import SeismicTree.Markup.Call
import SeismicTree.Proofs.AnalysisFailures
import SeismicTree.Proofs.Collapsing
import SeismicTree.Proofs.GeometryFailures
import SeismicTree.Proofs.ReadTrees
import SeismicTree.Proofs.Reachability
import SeismicTree.Proofs.ReadingFaults
import SeismicTree.Proofs.Retracing
import SeismicTree.Proofs.WeightConservation
import SeismicTree.Proofs.Finiteness
import SeismicTree.Proofs.GeometryPoints
import SeismicTree.Proofs.SourceReading
import SeismicTree.Proofs.Domains
import SeismicTree.Proofs.ModifiedSources
import SeismicTree.Proofs.RefusedCalls
import SeismicTree.Proofs.Outlines
import SeismicTree.Proofs.WrittenDocuments
import SeismicTree.Proofs.GroupRegions
import SeismicTree.Proofs.SourceFaults
import SeismicTree.Proofs.Reports
import SeismicTree.Proofs.PathLimits
import SeismicTree.Proofs.SampledRuns
import SeismicTree.Proofs.FirstFailures
import SeismicTree.Proofs.SuccessiveSelections
import SeismicTree.Proofs.ListedSources
import SeismicTree.Proofs.ReportedPaths
import SeismicTree.Proofs.SurfaceReadings
import SeismicTree.Proofs.Applications
import SeismicTree.Proofs.Spacing
import SeismicTree.Proofs.WholeNumbers
import SeismicTree.Proofs.WeightedChoices
import SeismicTree.Proofs.PositionLists
