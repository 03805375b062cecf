import FilterEditor.ConfigFile
import FilterEditor.Exchange.Mutation
import FilterEditor.History.Command
import FilterEditor.Session.Command
import FilterEditor.Tree.Objects
import FilterEditor.Proofs.Container
import FilterEditor.Proofs.FreshKey
import FilterEditor.Proofs.History
import FilterEditor.Proofs.Inside
import FilterEditor.Proofs.LatestWins
import FilterEditor.Proofs.Selection
import FilterEditor.Proofs.Timeline
import FilterEditor.Proofs.InPlace
import FilterEditor.Proofs.Availability
import FilterEditor.Proofs.Framing
import FilterEditor.Proofs.Misfit
import FilterEditor.Proofs.Tidy
import FilterEditor.Proofs.Legibility
import FilterEditor.Proofs.DryRun
import FilterEditor.Proofs.Commute
import FilterEditor.Proofs.Built
import FilterEditor.Proofs.ObjectKeys
import FilterEditor.Proofs.JsonText
import FilterEditor.Proofs.Nesting
import FilterEditor.Proofs.TreeExchange
import FilterEditor.Proofs.Preview
import FilterEditor.Proofs.Additions
import FilterEditor.Proofs.Addresses
import FilterEditor.Proofs.Bound
import FilterEditor.Proofs.FailedRedo
import FilterEditor.Proofs.TakeBack
import FilterEditor.Proofs.Fits
import FilterEditor.Proofs.EntryOrder
import FilterEditor.Proofs.Opposite
import FilterEditor.Proofs.Elision
import FilterEditor.Proofs.Flattening
import FilterEditor.Proofs.Slot
import FilterEditor.Proofs.Version
import FilterEditor.Proofs.EditExchange
import FilterEditor.Proofs.PathText
import FilterEditor.Proofs.NodeCount
import FilterEditor.Proofs.ShownValue
import FilterEditor.Proofs.Grammar
