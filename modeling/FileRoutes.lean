import FileRoutes.RouteTable
import FileRoutes.Wire.Middleware
import FileRoutes.Wire.Page
import FileRoutes.Wire.Settings
import FileRoutes.Proofs.SlotTable
import FileRoutes.Proofs.Mounting
import FileRoutes.Proofs.Choice
import FileRoutes.Proofs.Survivor
import FileRoutes.Proofs.Identifier
import FileRoutes.Proofs.ReadBack
import FileRoutes.Proofs.ParsedNodes
import FileRoutes.Proofs.Grammar
import FileRoutes.Proofs.CompiledPattern
import FileRoutes.Proofs.Binding
import FileRoutes.Proofs.Pieces
import FileRoutes.Proofs.Boundary
import FileRoutes.Proofs.NameOrder
import FileRoutes.Proofs.Nesting
import FileRoutes.Proofs.CompiledName
import FileRoutes.Proofs.SpecificityOrder
import FileRoutes.Proofs.Trimming
import FileRoutes.Proofs.Expansion
import FileRoutes.Proofs.InputOrder
import FileRoutes.Proofs.TableOrder
import FileRoutes.Proofs.KeptFiles
import FileRoutes.Proofs.SlashedName
import FileRoutes.Proofs.SlotSpelling
import FileRoutes.Proofs.Overriding
import FileRoutes.Proofs.FilledAddress
import FileRoutes.Proofs.WholePattern
import FileRoutes.Proofs.JoinedPath
import FileRoutes.Proofs.Verbatim
import FileRoutes.Proofs.StaticFirst
import FileRoutes.Proofs.StaticSegment
import FileRoutes.Proofs.Utf8
import FileRoutes.Proofs.Walk
import FileRoutes.Proofs.FoundFile
import FileRoutes.Proofs.Discovery
import FileRoutes.Proofs.MountedPath
import FileRoutes.Proofs.BelowRoot
import FileRoutes.Proofs.RouteDirectory
import FileRoutes.Proofs.EarliestBinding
import FileRoutes.Proofs.SplatNotation
import FileRoutes.Proofs.FaultPosition
import FileRoutes.Proofs.BracketName
import FileRoutes.Proofs.WrittenName
import FileRoutes.Proofs.CleanName
import FileRoutes.Proofs.Depth
import FileRoutes.Proofs.Lookup
import FileRoutes.Proofs.WireForm
