import PagedKernel.AddressSpace.Mapping
import PagedKernel.AddressSpace.Query
import PagedKernel.AddressSpace.Release
import PagedKernel.AddressSpace.Leaves
import PagedKernel.KernelSpace.Published
import PagedKernel.Limits
import PagedKernel.Machine.Boot
import PagedKernel.Register.Cr3
import PagedKernel.Simulation.FailingMemory
import PagedKernel.Simulation.Host
import PagedKernel.Syscall.Handler
import PagedKernel.UserMemory.PageWalk
import PagedKernel.UserMemory.Probe
import PagedKernel.Proofs.Memory.Agreement
import PagedKernel.Proofs.Table.Paths
import PagedKernel.Proofs.Machine.Steps
import PagedKernel.Proofs.Walk.Descent
import PagedKernel.Proofs.Walk.Growth
import PagedKernel.Proofs.Plan.Basic
import PagedKernel.Proofs.Plan.Edits
import PagedKernel.Proofs.Plan.Growth
import PagedKernel.Proofs.Plan.Ledger
import PagedKernel.Proofs.Plan.Reach
import PagedKernel.Proofs.Plan.Described
import PagedKernel.Proofs.AddressSpace.Mapping
import PagedKernel.Proofs.AddressSpace.Creation
import PagedKernel.Proofs.AddressSpace.Leaf
import PagedKernel.Proofs.AddressSpace.Teardown
import PagedKernel.Proofs.AddressSpace.Queries
import PagedKernel.Proofs.AddressSpace.Copying
import PagedKernel.Proofs.Machine.Boot
import PagedKernel.Proofs.Run.Basic
import PagedKernel.Proofs.Run.Steps
import PagedKernel.Proofs.Run.Invariant
import PagedKernel.Proofs.Run.Refinement
import PagedKernel.Proofs.Run.Forest
import PagedKernel.Proofs.Run.AllOrNothing
import PagedKernel.Proofs.Run.Accounting
import PagedKernel.Proofs.Stateful.Simulation
import PagedKernel.Proofs.UserMemory.Simulation
import PagedKernel.Proofs.UserMemory.PageWalk
import PagedKernel.Proofs.AddressSpace.Dependence
import PagedKernel.Proofs.Syscall.Simulation
import PagedKernel.Proofs.Syscall.Confinement
import PagedKernel.Proofs.Syscall.Recorded
import PagedKernel.Proofs.Syscall.Secrecy
import PagedKernel.Proofs.Probe.Execution
import PagedKernel.Proofs.Probe.Agreement
import PagedKernel.Proofs.Machine.Script
import PagedKernel.Proofs.AddressSpace.Scripts
import PagedKernel.Proofs.Machine.Tlb
import PagedKernel.Proofs.Plan.Maps
import PagedKernel.Proofs.AddressSpace.Coherence
import PagedKernel.Proofs.AddressSpace.Traversal
import PagedKernel.Proofs.Run.Caching
import PagedKernel.Proofs.Run.Coherence
import PagedKernel.Proofs.Stateful.Triple
import PagedKernel.Proofs.Syscall.DescriptorTable
import PagedKernel.Proofs.Syscall.OpenFiles
import PagedKernel.Proofs.Table.Addresses
import PagedKernel.Proofs.Plan.Leaves
import PagedKernel.Proofs.AddressSpace.Visits
import PagedKernel.Proofs.AddressSpace.KernelTables
import PagedKernel.Proofs.Run.Edited
import PagedKernel.Proofs.Run.KernelHalf
import PagedKernel.Proofs.Run.Spared
import PagedKernel.Proofs.Run.Building
import PagedKernel.Proofs.Run.Frozen
import PagedKernel.Proofs.AddressSpace.Permissions
import PagedKernel.Proofs.Run.Permissions
import PagedKernel.Proofs.UserMemory.Views
import PagedKernel.Proofs.Syscall.Pieces
import PagedKernel.Proofs.Syscall.Writing
import PagedKernel.Proofs.UserMemory.PageView
import PagedKernel.Proofs.Syscall.Bounds
import PagedKernel.Proofs.Syscall.Totality
import PagedKernel.Proofs.Stateful.Coincidence
import PagedKernel.Proofs.Machine.Twins
import PagedKernel.Proofs.Walk.Charts
import PagedKernel.Proofs.AddressSpace.Twins
import PagedKernel.Proofs.Plan.Trunk
import PagedKernel.Proofs.Plan.Construction
import PagedKernel.Proofs.Run.Site
import PagedKernel.Proofs.Run.FreeFrames
import PagedKernel.Proofs.Run.Visible
import PagedKernel.Proofs.Run.Shaded
import PagedKernel.Proofs.UserMemory.Filling
import PagedKernel.Proofs.UserMemory.Strings
import PagedKernel.Proofs.Syscall.Receipts
import PagedKernel.Proofs.Syscall.Reading
import PagedKernel.Proofs.Syscall.Opening
import PagedKernel.Proofs.Table.Order
import PagedKernel.Proofs.AddressSpace.LeafSlots
import PagedKernel.Proofs.AddressSpace.VisitOrder
import PagedKernel.Proofs.AddressSpace.InTurn
import PagedKernel.Proofs.Run.Enumeration
import PagedKernel.Proofs.Run.Traversals
import PagedKernel.Proofs.Run.KernelMap
import PagedKernel.Proofs.AddressSpace.Footprint
import PagedKernel.Proofs.Run.Footprint
import PagedKernel.Proofs.Run.TableCount
import PagedKernel.Proofs.Run.Orders
import PagedKernel.Proofs.UserMemory.Copies
import PagedKernel.Proofs.Syscall.FileMap
import PagedKernel.Proofs.UserMemory.Recorded
import PagedKernel.Proofs.Syscall.Answers
import PagedKernel.Proofs.Memory.DirectMap
import PagedKernel.Proofs.AddressSpace.Aliases
import PagedKernel.Proofs.Run.DirectMap
import PagedKernel.Proofs.Table.Fields
import PagedKernel.Proofs.Stateful.Sessions
import PagedKernel.Proofs.Machine.Allocations
import PagedKernel.Proofs.Memory.ByteStrings
import PagedKernel.Proofs.Memory.Views
import PagedKernel.Proofs.KernelSpace.Published
import PagedKernel.Proofs.Address.Pages
import PagedKernel.Proofs.Register.Cr3
import PagedKernel.Proofs.Table.Indices
import PagedKernel.Proofs.UserMemory.Sampling
import PagedKernel.Proofs.Probe.Faults
