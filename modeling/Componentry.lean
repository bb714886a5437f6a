import Componentry.Document.Describe
import Componentry.Main
import Componentry.Proofs.Annotations.Arguments
import Componentry.Proofs.Annotations.Attribution
import Componentry.Proofs.Annotations.ExportShape
import Componentry.Proofs.Annotations.Stripping
import Componentry.Proofs.Cache.Snapshots
import Componentry.Proofs.Document.Attributes
import Componentry.Proofs.Document.Copies
import Componentry.Proofs.Document.Grammar
import Componentry.Proofs.Document.Interpolation
import Componentry.Proofs.Document.Matching
import Componentry.Proofs.Live.Debounce
import Componentry.Proofs.Live.Histories
import Componentry.Proofs.Live.HotUpdate
import Componentry.Proofs.Live.Reconnection
import Componentry.Proofs.Live.ScopedStyles
import Componentry.Proofs.Live.Stack
import Componentry.Proofs.Live.Throttle
import Componentry.Proofs.Module.LineMaps
import Componentry.Proofs.Module.Literals
import Componentry.Proofs.Project.Children
import Componentry.Proofs.Project.Manifest
import Componentry.Proofs.Project.Tags
import Componentry.Proofs.Routes
import Componentry.Proofs.Source.Assembly
import Componentry.Proofs.Style.Flattening
import Componentry.Proofs.Style.Partition
import Componentry.Proofs.Style.Scoping
import Componentry.Source.Report
