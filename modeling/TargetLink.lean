import TargetLink.Text.Hex
import TargetLink.Text.Utf8
import TargetLink.Bytes
import TargetLink.Elf.Machine
import TargetLink.Elf.Info
import TargetLink.Elf.Section
import TargetLink.Elf.DynamicTag
import TargetLink.Error
import TargetLink.Elf.Header
import TargetLink.Symbol
import TargetLink.Symbol.Lookup
import TargetLink.Dsbt
import TargetLink.Elf.ObjectFile
import TargetLink.Relocation.Check
import TargetLink.Relocation.Layout
import TargetLink.Relocation.Cell
import TargetLink.Relocation.Kind
import TargetLink.Relocation.Group
import TargetLink.Relocation.Arm
import TargetLink.Relocation.C6000
import TargetLink.Relocation.Codec
import TargetLink.Relocation.InPlace
import TargetLink.Target.Client
import TargetLink.Target.Memory
import TargetLink.Target.Recorded
import TargetLink.Target.Scheduled
import TargetLink.Target.Simulated
import TargetLink.Target.Run
import TargetLink.Module.Segment
import TargetLink.Module.Resident
import TargetLink.Module.Draft
import TargetLink.Module.Relocate
import TargetLink.Module.RelocateInPlace
import TargetLink.Loader.Arguments
import TargetLink.Loader.State
import TargetLink.Loader.Session
import TargetLink.Loader.Load
import TargetLink.Loader.Unload
import TargetLink.Loader.Run
import TargetLink.Proofs.Steps
import TargetLink.Proofs.SampleObjects
import TargetLink.Proofs.Characters
import TargetLink.Proofs.Encodings
import TargetLink.Proofs.ArgumentBlocks
import TargetLink.Proofs.Slots
import TargetLink.Proofs.SlotRuns
import TargetLink.Proofs.FirstFit
import TargetLink.Proofs.Exports
import TargetLink.Proofs.Searching
import TargetLink.Proofs.Discovery
import TargetLink.Proofs.Visibility
import TargetLink.Proofs.Residents
import TargetLink.Proofs.Ledger
import TargetLink.Proofs.Accounting
import TargetLink.Proofs.Leaving
import TargetLink.Proofs.Books
import TargetLink.Proofs.Departure
import TargetLink.Proofs.Release
import TargetLink.Proofs.Placement
import TargetLink.Proofs.Drafting
import TargetLink.Proofs.Phases
import TargetLink.Proofs.Moves
import TargetLink.Proofs.Completion
import TargetLink.Proofs.Calls
import TargetLink.Proofs.Ordering
import TargetLink.Proofs.Nesting
import TargetLink.Proofs.Translation
import TargetLink.Proofs.Failures
import TargetLink.Proofs.Runs
import TargetLink.Proofs.Regions
import TargetLink.Proofs.HeapSearch
import TargetLink.Proofs.SimulatedLedger
import TargetLink.Proofs.Views
import TargetLink.Proofs.TargetMemory
import TargetLink.Proofs.TargetRuns
import TargetLink.Proofs.ByteMap
import TargetLink.Proofs.Collisions
import TargetLink.Proofs.Layouts
import TargetLink.Proofs.ArmFields
import TargetLink.Proofs.InPlace
import TargetLink.Proofs.Patches
import TargetLink.Proofs.Footprints
import TargetLink.Proofs.Branches
import TargetLink.Proofs.GroupSequences
import TargetLink.Proofs.GroupAddends
import TargetLink.Proofs.ScaledFields
import TargetLink.Proofs.Halves
import TargetLink.Proofs.Reapplication
import TargetLink.Proofs.Passes
import TargetLink.Proofs.Homes
import TargetLink.Proofs.ExactlyOnce
import TargetLink.Proofs.Reordering
import TargetLink.Proofs.ByteOrders
import TargetLink.Proofs.InertRelocations
import TargetLink.Proofs.DirectLookup
import TargetLink.Proofs.WeakReferences
import TargetLink.Proofs.Atomicity
import TargetLink.Proofs.RoundTrip
import TargetLink.Proofs.Initializers
import TargetLink.Proofs.Terminators
import TargetLink.Proofs.Rejection
import TargetLink.Proofs.InternalErrors
import TargetLink.Proofs.FailedTable
import TargetLink.Proofs.Persistence
import TargetLink.Proofs.Bindings
import TargetLink.Proofs.Acyclicity
import TargetLink.Proofs.Turns
import TargetLink.Proofs.Application
import TargetLink.Proofs.Denotation
import TargetLink.Proofs.Names
import TargetLink.Proofs.Sharing
import TargetLink.Proofs.Stores
import TargetLink.Proofs.Isolation
import TargetLink.Proofs.Lodging
import TargetLink.Proofs.Portraits
import TargetLink.Proofs.Founded
import TargetLink.Proofs.Origins
import TargetLink.Proofs.TableStages
import TargetLink.Proofs.Flush
import TargetLink.Proofs.TableViews
import TargetLink.Proofs.StaticModules
import TargetLink.Proofs.StaticCalls
import TargetLink.Proofs.StaticImages
import TargetLink.Proofs.LinkRanges
import TargetLink.Proofs.RelocationTables
import TargetLink.Proofs.AcceptedFiles
import TargetLink.Proofs.DynamicTables
