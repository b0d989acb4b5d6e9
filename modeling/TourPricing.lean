import TourPricing.CommandLine.Session
import TourPricing.Main
import TourPricing.Master.Scripted
import TourPricing.Proofs.Manager.Offers
import TourPricing.Proofs.Manager.Teardown
import TourPricing.Proofs.Pricing.SmoothedRoutes
import TourPricing.Proofs.Search.Optimality
import TourPricing.Proofs.Expansion.Feasibility
import TourPricing.Proofs.Manager.BestValues
import TourPricing.Proofs.Manager.Tracing
import TourPricing.Proofs.Master.Requests
import TourPricing.Proofs.ColumnGeneration.Rounds
import TourPricing.Proofs.ColumnGeneration.Bounded
import TourPricing.Proofs.Manager.LifeCycle
import TourPricing.Proofs.Network.Listing
import TourPricing.Proofs.Network.Points
import TourPricing.Proofs.Network.AllPairs
import TourPricing.Proofs.Pricing.Narrowing
import TourPricing.Proofs.Search.Equivalence
import TourPricing.Proofs.Search.LeastCost
import TourPricing.Proofs.Search.Limits
import TourPricing.Proofs.Pricing.EdgeDepartures
import TourPricing.Proofs.Pricing.LeastCosts
import TourPricing.Proofs.Search.Horizons
import TourPricing.Proofs.Pricing.SmoothingStates
import TourPricing.Proofs.Manager.Seeding
import TourPricing.Proofs.Tour.Completeness
import TourPricing.Proofs.Construction.CompleteNetworks
import TourPricing.Proofs.Search.VertexSet
import TourPricing.Proofs.Construction.PartialTours
import TourPricing.Proofs.Search.Backtracking
import TourPricing.Proofs.Clock
