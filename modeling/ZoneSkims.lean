import ZoneSkims.Main
import ZoneSkims.Proofs.Scalar.Laws
import ZoneSkims.Proofs.Scalar.Rounding
import ZoneSkims.Proofs.Scalar.Units
import ZoneSkims.Proofs.Scalar.Signs
import ZoneSkims.Proofs.Scalar.Addition
import ZoneSkims.Proofs.Scalar.Double
import ZoneSkims.Proofs.Outcome
import ZoneSkims.Proofs.Positions
import ZoneSkims.Proofs.Transit.Timetable
import ZoneSkims.Proofs.Transit.Trips
import ZoneSkims.Proofs.Transit.Journey
import ZoneSkims.Proofs.Transit.Improvement
import ZoneSkims.Proofs.Transit.Scan
import ZoneSkims.Proofs.Transit.Rounds
import ZoneSkims.Proofs.Transit.Course
import ZoneSkims.Proofs.Transit.Soundness
import ZoneSkims.Proofs.Transit.Optimality
import ZoneSkims.Proofs.Road.Adjacency
import ZoneSkims.Proofs.Road.Frontier
import ZoneSkims.Proofs.Road.Network
import ZoneSkims.Proofs.Road.Search
import ZoneSkims.Proofs.Road.TreePath
import ZoneSkims.Proofs.Road.Sweep
import ZoneSkims.Proofs.Road.LeastCost
import ZoneSkims.Proofs.Matrix.Block
import ZoneSkims.Proofs.Skim.Assembly
import ZoneSkims.Proofs.Skim.Run
import ZoneSkims.Proofs.Matrix.Combine
import ZoneSkims.Proofs.Skim.Road
import ZoneSkims.Proofs.Skim.Configuration
import ZoneSkims.Proofs.Skim.Workers
import ZoneSkims.Proofs.Road.EarlyStop
import ZoneSkims.Proofs.Scalar.Elapsed
import ZoneSkims.Proofs.Scalar.Single
import ZoneSkims.Proofs.Road.Pairwise
import ZoneSkims.Proofs.Skim.Pairwise
import ZoneSkims.Proofs.Scalar.Exact
import ZoneSkims.Proofs.Skim.Averages
import ZoneSkims.Proofs.Transit.Departure
import ZoneSkims.Proofs.Road.Target
import ZoneSkims.Proofs.Road.EarliestArrival
import ZoneSkims.Proofs.Transit.Range
import ZoneSkims.Proofs.Transit.Tight
import ZoneSkims.Proofs.Scalar.Undefined
import ZoneSkims.Proofs.Matrix.PartialMap
import ZoneSkims.Proofs.Matrix.Refinement
import ZoneSkims.Proofs.Matrix.Computed
import ZoneSkims.Proofs.Scalar.Magnitude
import ZoneSkims.Proofs.Breach
import ZoneSkims.Proofs.Road.Safety
import ZoneSkims.Proofs.Skim.Safety
import ZoneSkims.Proofs.Transit.Forward
import ZoneSkims.Proofs.Transit.Coherence
import ZoneSkims.Proofs.Transit.Rooftop
import ZoneSkims.Proofs.Skim.Summaries
import ZoneSkims.Proofs.Skim.Transit
import ZoneSkims.Proofs.Road.Discipline
import ZoneSkims.Proofs.Scalar.Plain
import ZoneSkims.Proofs.Transit.Front
import ZoneSkims.Proofs.Transit.Segments
import ZoneSkims.Proofs.Road.Lockstep
import ZoneSkims.Proofs.Road.TimeShift
import ZoneSkims.Proofs.Skim.SharedSlice
import ZoneSkims.Proofs.Road.CostBound
import ZoneSkims.Proofs.Transit.Adaption
import ZoneSkims.Proofs.Transit.RoundLimit
import ZoneSkims.Proofs.Transit.TransferLimit
import ZoneSkims.Proofs.Scalar.Difference
import ZoneSkims.Proofs.Road.Faults
import ZoneSkims.Proofs.Road.Canonical
import ZoneSkims.Proofs.Transit.Mileage
import ZoneSkims.Proofs.Transit.Arrivals
import ZoneSkims.Proofs.Transit.Trains
import ZoneSkims.Proofs.Transit.Patience
import ZoneSkims.Proofs.Transit.Drafting
import ZoneSkims.Proofs.Matrix.Addresses
import ZoneSkims.Proofs.Road.Reversal
import ZoneSkims.Proofs.Scalar.Cells
import ZoneSkims.Proofs.Skim.Mask
import ZoneSkims.Proofs.Scalar.Sorting
import ZoneSkims.Proofs.Transit.AccessOrder
import ZoneSkims.Proofs.Scalar.ExactSum
import ZoneSkims.Proofs.Matrix.Sums
import ZoneSkims.Proofs.Road.Restriction
import ZoneSkims.Proofs.Scalar.Return
import ZoneSkims.Proofs.Transit.Punctual
import ZoneSkims.Proofs.Scalar.Fraction
import ZoneSkims.Proofs.Scalar.Quotient
import ZoneSkims.Proofs.Scalar.Product
import ZoneSkims.Proofs.Road.Observed
import ZoneSkims.Proofs.Zone.Random
import ZoneSkims.Proofs.Zone.Table
import ZoneSkims.Proofs.Zone.Weights
import ZoneSkims.Proofs.Zone.Sampling
import ZoneSkims.Proofs.Zone.Stability
import ZoneSkims.Proofs.Distance
import ZoneSkims.Proofs.Transit.NearTransfers
import ZoneSkims.Proofs.Matrix.Shares
import ZoneSkims.Proofs.Transit.Boarding
import ZoneSkims.Proofs.Road.LaidOut
import ZoneSkims.Proofs.Text.Number
import ZoneSkims.Proofs.Text.Blank
import ZoneSkims.Proofs.Scalar.Whole
import ZoneSkims.Proofs.Clock
import ZoneSkims.Proofs.Mode
