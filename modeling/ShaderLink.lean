import ShaderLink.Main
import ShaderLink.Pattern.Outcomes
import ShaderLink.Proofs.Cycles
import ShaderLink.Proofs.Runs
import ShaderLink.Proofs.WholeWord
import ShaderLink.Proofs.FinalNames
import ShaderLink.Proofs.FirstMatches
import ShaderLink.Proofs.Captures
import ShaderLink.Proofs.Contracts
import ShaderLink.Proofs.Reading
import ShaderLink.Proofs.Soundness
import ShaderLink.Proofs.Keeping
import ShaderLink.Proofs.Exploring
import ShaderLink.Proofs.Compiling
import ShaderLink.Proofs.Reaching
import ShaderLink.Proofs.Linking
import ShaderLink.Proofs.Sessions
import ShaderLink.Proofs.NewNames
import ShaderLink.Proofs.Visiting
import ShaderLink.Proofs.Reordering
import ShaderLink.Proofs.Matching
import ShaderLink.Proofs.Layouts
import ShaderLink.Proofs.Mentions
import ShaderLink.Proofs.Scans
import ShaderLink.Proofs.LineComments
import ShaderLink.Proofs.Comments
import ShaderLink.Proofs.Accounts
import ShaderLink.Proofs.Accounting
import ShaderLink.Proofs.Frames
import ShaderLink.Proofs.Ledgers
import ShaderLink.Proofs.Populating
import ShaderLink.Proofs.Atomicity
import ShaderLink.Proofs.Requests
import ShaderLink.Proofs.Serials
import ShaderLink.Proofs.Stages
import ShaderLink.Proofs.Finishing
import ShaderLink.Proofs.Sustaining
import ShaderLink.Proofs.Histories
import ShaderLink.Proofs.Answering
import ShaderLink.Proofs.Trees
import ShaderLink.Proofs.ModuleFiles
import ShaderLink.Proofs.Expansion
import ShaderLink.Proofs.Agreement
import ShaderLink.Proofs.Items
import ShaderLink.Proofs.Leads
import ShaderLink.Proofs.StuckNodes
import ShaderLink.Proofs.ImportedUses
import ShaderLink.Proofs.Elsewhere
import ShaderLink.Proofs.Emptying
import ShaderLink.Proofs.Wholes
import ShaderLink.Proofs.Queueing
import ShaderLink.Proofs.Rounds
import ShaderLink.Proofs.Renames
import ShaderLink.Proofs.NamedCalls
import ShaderLink.Proofs.NamedValues
import ShaderLink.Proofs.Overloads
import ShaderLink.Proofs.Filling
import ShaderLink.Proofs.Mappings
import ShaderLink.Proofs.Contents
import ShaderLink.Proofs.Touching
import ShaderLink.Proofs.Requirements
import ShaderLink.Proofs.Greedy
import ShaderLink.Proofs.Lines
import ShaderLink.Proofs.PositionalCalls
import ShaderLink.Proofs.Printing
import ShaderLink.Proofs.Roundtrips
import ShaderLink.Proofs.Blocks
import ShaderLink.Proofs.Replacing
import ShaderLink.Proofs.EmptyLines
import ShaderLink.Proofs.SharedTypes
import ShaderLink.Proofs.CommaCuts
import ShaderLink.Proofs.RepeatedSearches
