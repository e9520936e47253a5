import RestGraph.Main
import RestGraph.Name.Quoted
import RestGraph.Request.Resolve
import RestGraph.Files.Tree
import RestGraph.Proofs.RoundTrip
import RestGraph.Proofs.Refinement
import RestGraph.Proofs.Inline
import RestGraph.Proofs.Definition
import RestGraph.Proofs.Namespace
import RestGraph.Proofs.TypeName
import RestGraph.Proofs.RootField
import RestGraph.Proofs.Grounded
import RestGraph.Proofs.Reach
import RestGraph.Proofs.Turn
import RestGraph.Proofs.Schedule
import RestGraph.Proofs.Header
import RestGraph.Proofs.NonNull
import RestGraph.Proofs.Contents
import RestGraph.Proofs.WellTyped
import RestGraph.Proofs.Cause
import RestGraph.Proofs.Repeat
import RestGraph.Proofs.PropertyField
import RestGraph.Proofs.Renaming
import RestGraph.Proofs.Enumeration
import RestGraph.Proofs.SuccessResponse
import RestGraph.Proofs.LinkFailure
import RestGraph.Proofs.Level
import RestGraph.Proofs.Limit
import RestGraph.Proofs.OwnName
import RestGraph.Proofs.Percent
import RestGraph.Proofs.Template
import RestGraph.Proofs.Placeholder
import RestGraph.Proofs.Pointer
import RestGraph.Proofs.Configuration
import RestGraph.Proofs.Json
import RestGraph.Proofs.YamlScalar
import RestGraph.Proofs.YamlNode
import RestGraph.Proofs.Document
import RestGraph.Proofs.Spelling
import RestGraph.Proofs.NameOrder
import RestGraph.Proofs.Discovery
import RestGraph.Proofs.Merging
