import LuxKernel.Consensus.Votes
import LuxKernel.Consensus.Reports
import LuxKernel.Consensus.Quorum
import LuxKernel.Consensus.ReplyOrder
import LuxKernel.Consensus.Decisions
import LuxKernel.Consensus.Provenance
import LuxKernel.Consensus.Capacity
import LuxKernel.Topology.Declarations
import LuxKernel.Boot.Record
import LuxKernel.Boot.Agreement
import LuxKernel.Boot.Attestation
import LuxKernel.Boot.Grammar
import LuxKernel.Boot.WellFormed
import LuxKernel.Auth.Delegation
import LuxKernel.Auth.Rotation
import LuxKernel.Auth.Commitments
import LuxKernel.Auth.Occupancy
import LuxKernel.Auth.Finality
import LuxKernel.Metabolism.Conservation
import LuxKernel.Audit.Budget
import LuxKernel.Audit.Binding
import LuxKernel.Audit.Saturation
import LuxKernel.Audit.Export
import LuxKernel.Hsm.Lifecycle
import LuxKernel.Scheduler.Runs
import LuxKernel.Wasm.Monitor
import LuxKernel.Python.LuxGate
import LuxKernel.Python.Hiring
import LuxKernel.Lending.Phase2
import LuxKernel.Spec.Grants
