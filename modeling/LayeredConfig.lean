import LayeredConfig.Listing
import LayeredConfig.LogTarget
import LayeredConfig.Main
import LayeredConfig.Proofs.Created
import LayeredConfig.Proofs.Precedence
import LayeredConfig.Proofs.Reload
import LayeredConfig.Proofs.Xml.RoundTrip
import LayeredConfig.Session
import LayeredConfig.Proofs.PathTable
import LayeredConfig.Proofs.Alike
import LayeredConfig.Proofs.Reorder
import LayeredConfig.Proofs.SwitchOrder
import LayeredConfig.Proofs.VariableOrder
import LayeredConfig.Proofs.Addressing
import LayeredConfig.Proofs.InPlace
import LayeredConfig.Proofs.Rerun
import LayeredConfig.Proofs.Scope
import LayeredConfig.Proofs.Reachable
import LayeredConfig.Proofs.NewKeys
import LayeredConfig.Proofs.StageAgain
import LayeredConfig.Proofs.StaleNames
import LayeredConfig.Proofs.ListedNames
import LayeredConfig.Proofs.Lenient
import LayeredConfig.Proofs.LeafVariables
import LayeredConfig.Proofs.Files
import LayeredConfig.Proofs.Regular
import LayeredConfig.Proofs.Resolved
import LayeredConfig.Proofs.Conversion
import LayeredConfig.Proofs.SwitchEffect
import LayeredConfig.Proofs.Scan
import LayeredConfig.Proofs.PrefixScan
import LayeredConfig.Proofs.Mutation
import LayeredConfig.Proofs.Removal
import LayeredConfig.Proofs.ChainedReads
import LayeredConfig.Proofs.Snapshot
import LayeredConfig.Proofs.Placeholder
import LayeredConfig.Proofs.Nesting
import LayeredConfig.Proofs.Reproduction
import LayeredConfig.Proofs.Xml.Accepted
import LayeredConfig.Proofs.Tokens
