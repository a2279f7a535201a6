import QueryNet.Json.Reader
import QueryNet.Main
import QueryNet.Packet.Wire
import QueryNet.Proofs.Delivery
import QueryNet.Proofs.Delivery.Climb
import QueryNet.Proofs.Handling
import QueryNet.Proofs.Expansion
import QueryNet.Proofs.Expansion.Answering
import QueryNet.Proofs.Expansion.Replies
import QueryNet.Proofs.Guard
import QueryNet.Proofs.Guard.Ring
import QueryNet.Proofs.Guard.Stack
import QueryNet.Proofs.Guard.Chain
import QueryNet.Proofs.Announcement
import QueryNet.Proofs.Routing.Update
import QueryNet.Proofs.Routing.Fabric
import QueryNet.Proofs.Routing.Soundness
import QueryNet.Proofs.Routing.Convergence
import QueryNet.Proofs.Routing.Wiring
import QueryNet.Proofs.Routing.Running
import QueryNet.Proofs.Routing.Influence
import QueryNet.Proofs.Routing.Minimum
import QueryNet.Proofs.Course
import QueryNet.Proofs.Course.Entries
import QueryNet.Proofs.Course.Accounts
import QueryNet.Proofs.Entailment
import QueryNet.Proofs.Substitution
import QueryNet.Proofs.Wire
import QueryNet.Proofs.Separation
import QueryNet.Proofs.Forwarding
import QueryNet.Proofs.Scanning
import QueryNet.Proofs.Scanning.Balance
import QueryNet.Proofs.Reading
import QueryNet.Proofs.Metrics
import QueryNet.Proofs.Traffic.Conservation
import QueryNet.Proofs.Traffic.Standstill
import QueryNet.Proofs.Scope.Network
import QueryNet.Proofs.Relay
import QueryNet.Proofs.Scenario.Layout
import QueryNet.Proofs.Scenario.Faults
import QueryNet.Proofs.Scenario.Execution
import QueryNet.Proofs.Scenario.Outcomes
import QueryNet.Proofs.Announcement.Forms
import QueryNet.Proofs.Network.Refusals
import QueryNet.Proofs.Network.Refreshing
import QueryNet.Proofs.Routing.Truth
import QueryNet.Proofs.Translation
import QueryNet.Proofs.Shape
