import LiveQuery.Main
import LiveQuery.Proofs.Machine.Run
import LiveQuery.Proofs.Typing.Ground
import LiveQuery.Proofs.Typing.Judgement
import LiveQuery.Proofs.Typing.Inference
import LiveQuery.Proofs.Typing.Builtins
import LiveQuery.Proofs.Typing.Evaluation
import LiveQuery.Proofs.Typing.Soundness
import LiveQuery.Proofs.Encoding.Words
import LiveQuery.Proofs.Typing.Inlining
import LiveQuery.Proofs.Encoding.Record
import LiveQuery.Proofs.Encoding.Storable
import LiveQuery.Proofs.Typing.Catalog
import LiveQuery.Proofs.Typing.Session
import LiveQuery.Proofs.Grammar.Reading
import LiveQuery.Proofs.Grammar.Tokens
import LiveQuery.Proofs.Grammar.Types
import LiveQuery.Proofs.Grammar.Printing
import LiveQuery.Proofs.Schema
import LiveQuery.Proofs.Database.Moves
import LiveQuery.Proofs.Database.StoredRows
import LiveQuery.Proofs.Machine.Ends
import LiveQuery.Proofs.Cursor
import LiveQuery.Proofs.Machine.Calls
import LiveQuery.Proofs.Machine.Feeds
import LiveQuery.Proofs.Machine.Renders
import LiveQuery.Proofs.Machine.Stages
import LiveQuery.Proofs.Typing.Accepted
import LiveQuery.Proofs.Query.Rows
import LiveQuery.Proofs.Query.Result
import LiveQuery.Proofs.Plan.Steps
import LiveQuery.Proofs.Plan.Typing
import LiveQuery.Proofs.Plan.Alike
import LiveQuery.Proofs.Plan.Points
import LiveQuery.Proofs.Plan.Inlined
import LiveQuery.Proofs.Plan.Rows
import LiveQuery.Proofs.Plan.Meaning
import LiveQuery.Proofs.Query.Select
import LiveQuery.Proofs.Query.Arrange
import LiveQuery.Proofs.Database.Reachable
import LiveQuery.Proofs.Machine.Sender
import LiveQuery.Proofs.Machine.Fuel
import LiveQuery.Proofs.Termination.Stock
import LiveQuery.Proofs.Termination.Iterators
import LiveQuery.Proofs.Termination.Values
import LiveQuery.Proofs.Termination.Builtins
import LiveQuery.Proofs.Termination.Expressions
import LiveQuery.Proofs.Termination.Evaluations
import LiveQuery.Proofs.Live.Audience
import LiveQuery.Proofs.Live.Traffic
import LiveQuery.Proofs.Live.Transparent
import LiveQuery.Proofs.Live.Accounts
import LiveQuery.Proofs.Live.Channels
import LiveQuery.Proofs.Live.Reruns
import LiveQuery.Proofs.Live.Settling
import LiveQuery.Proofs.Live.Leaving
import LiveQuery.Proofs.Live.Changes
import LiveQuery.Proofs.Live.Convergence
import LiveQuery.Proofs.Live.Rounds
import LiveQuery.Proofs.Live.Scattered
import LiveQuery.Proofs.Live.Apart
import LiveQuery.Proofs.Database.Onward
import LiveQuery.Proofs.Database.Reopening
import LiveQuery.Proofs.Database.RowKeys
import LiveQuery.Proofs.Machine.Keeps
import LiveQuery.Proofs.Machine.Tidy
import LiveQuery.Proofs.Inlining.Meaning
import LiveQuery.Proofs.Caching.Clients
import LiveQuery.Proofs.Live.Atomic
import LiveQuery.Proofs.Live.Dispatch
import LiveQuery.Proofs.Live.Addresses
import LiveQuery.Proofs.Database.Conversation
import LiveQuery.Proofs.Grammar.Literals
import LiveQuery.Proofs.Grammar.Queries
import LiveQuery.Proofs.Grammar.Grouping
import LiveQuery.Proofs.Grammar.Expressions
import LiveQuery.Proofs.Grammar.Insertions
import LiveQuery.Proofs.Database.Inserting
import LiveQuery.Proofs.Database.Unnamed
import LiveQuery.Proofs.Live.Hearing
import LiveQuery.Proofs.Live.Precedence
import LiveQuery.Proofs.Database.Determined
import LiveQuery.Proofs.Live.Shares
import LiveQuery.Proofs.Live.Alike
import LiveQuery.Proofs.Live.Interference
import LiveQuery.Proofs.Iterators.Pulls
import LiveQuery.Proofs.Encoding.Delimited
import LiveQuery.Proofs.Encoding.Order
import LiveQuery.Proofs.Typing.Unification
import LiveQuery.Live.Rosters
import LiveQuery.Proofs.Live.Standing
import LiveQuery.Proofs.Live.Rosters
import LiveQuery.Proofs.Encoding.Bounded
import LiveQuery.Proofs.Machine.Invariants
import LiveQuery.Proofs.Machine.Frames
import LiveQuery.Proofs.Database.Declarations
import LiveQuery.Proofs.Database.Lookups
import LiveQuery.Storage
import LiveQuery.Proofs.Storage
import LiveQuery.Proofs.Encoding.Header
import LiveQuery.Proofs.Grammar.Quotations
import LiveQuery.Proofs.Typing.Contracts
import LiveQuery.Proofs.Database.Environments
import LiveQuery.Proofs.Live.Overlap
