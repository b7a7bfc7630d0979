import BlockCode.Main
import BlockCode.Render.Template
import BlockCode.Proofs.Grammar
import BlockCode.Proofs.Names
import BlockCode.Proofs.Numbers
import BlockCode.Proofs.Lexing
import BlockCode.Proofs.ByName
import BlockCode.Proofs.Phrases
import BlockCode.Proofs.Runs
import BlockCode.Proofs.Expressions
import BlockCode.Proofs.Traversal
import BlockCode.Proofs.Workspaces
import BlockCode.Proofs.Requests
import BlockCode.Proofs.Declarations
import BlockCode.Proofs.Unfoldings
import BlockCode.Proofs.Layout
import BlockCode.Proofs.TidyCode
import BlockCode.Proofs.Programs
import BlockCode.Proofs.Loading
import BlockCode.Proofs.JsonDocuments
import BlockCode.Proofs.Pieces
import BlockCode.Proofs.Trimming
import BlockCode.Proofs.Formats
import BlockCode.Proofs.Sketches
import BlockCode.Proofs.Rows
import BlockCode.Proofs.RoundTrips
import BlockCode.Proofs.Trees
import BlockCode.Proofs.Directions
import BlockCode.Proofs.Commands
import BlockCode.Proofs.Demands
import BlockCode.Proofs.Companions
import BlockCode.Proofs.Acceptance
import BlockCode.Proofs.Insertions
import BlockCode.Proofs.DeveloperVariables
import BlockCode.Proofs.MadeUpIds
import BlockCode.Proofs.InjectedIds
import BlockCode.Proofs.Ranges
import BlockCode.Proofs.Bounds
import BlockCode.Proofs.Counting
import BlockCode.Proofs.LoopDepth
import BlockCode.Proofs.Listings
import BlockCode.Proofs.Instrumentation
import BlockCode.Proofs.Nodes
import BlockCode.Proofs.JsonFaults
import BlockCode.Proofs.LoadedBlocks
import BlockCode.Proofs.Clauses
import BlockCode.Proofs.Registration
import BlockCode.Proofs.HiddenShadows
import BlockCode.Proofs.Mentions
import BlockCode.Proofs.FurtherRoots
import BlockCode.Proofs.RootOrder
import BlockCode.Proofs.Meanings
import BlockCode.Proofs.ChildOrder
import BlockCode.Proofs.RulesInUse
import BlockCode.Proofs.QuotedTexts
import BlockCode.Proofs.LegalNames
import BlockCode.Proofs.NameSearch
import BlockCode.Proofs.Indentation
import BlockCode.Proofs.Preambles
