import Rdf.Command.Run
import Rdf.Document.Input
import Rdf.Graph.Isomorphism
import Rdf.Graph.Statistics
import Rdf.Main
import Rdf.Token.Walk
import Rdf.Proofs.Isomorphism.Colours
import Rdf.Proofs.Isomorphism.Decision
import Rdf.Proofs.Token.Escapes
import Rdf.Proofs.Token.Labels
import Rdf.Proofs.Token.Reading
import Rdf.Proofs.Document.Runs
import Rdf.Proofs.Term.Validity
import Rdf.Proofs.Graph.Insertion
import Rdf.Proofs.NTriples.RoundTrip
import Rdf.Proofs.Turtle.Grammar
import Rdf.Proofs.Turtle.Meaning
import Rdf.Proofs.Graph.Minting
import Rdf.Proofs.Turtle.Naming
import Rdf.Proofs.Turtle.Effects
import Rdf.Proofs.Turtle.Phrases
import Rdf.Proofs.Turtle.Statements
import Rdf.Proofs.Turtle.Acceptance
import Rdf.Proofs.Token.Names
import Rdf.Proofs.Document.Spelling
import Rdf.Proofs.Turtle.Chains
import Rdf.Proofs.Turtle.Forest
import Rdf.Proofs.Turtle.Nesting
import Rdf.Proofs.Turtle.Compaction
import Rdf.Proofs.Turtle.Abbreviation
import Rdf.Proofs.Turtle.Rendering
import Rdf.Proofs.Turtle.Blocks
import Rdf.Proofs.Turtle.Renaming
import Rdf.Proofs.Turtle.Directives
import Rdf.Proofs.Turtle.RoundTrip
import Rdf.Proofs.Turtle.UniqueReading
import Rdf.Proofs.Turtle.Derivations
import Rdf.Proofs.Turtle.Denotation
import Rdf.Proofs.Token.Forms
import Rdf.Proofs.Token.Extent
import Rdf.Proofs.Iri.Schemes
import Rdf.Proofs.Iri.Standard
import Rdf.Proofs.Iri.Components
import Rdf.Proofs.Iri.DotSegments
import Rdf.Proofs.Iri.Resolution
import Rdf.Proofs.NTriples.Inclusion
import Rdf.Proofs.NTriples.Refusals
import Rdf.Proofs.Turtle.Soundness
import Rdf.Proofs.Turtle.Writing
import Rdf.Proofs.Document.Outcome
import Rdf.Proofs.Graph.History
import Rdf.Proofs.Turtle.Moves
import Rdf.Proofs.Turtle.Labelling
import Rdf.Proofs.Turtle.Openings
import Rdf.Proofs.Token.Lookahead
import Rdf.Proofs.Token.Boundaries
import Rdf.Proofs.Token.Gaps
import Rdf.Proofs.Document.Layout
import Rdf.Proofs.Turtle.Overflow
import Rdf.Proofs.Turtle.Depth
import Rdf.Proofs.Text.Utf8
import Rdf.Proofs.Document.Streams
import Rdf.Proofs.Token.LineEnds
import Rdf.Proofs.Command.Host
import Rdf.Proofs.Command.Conversion
import Rdf.Proofs.Document.Recovery
import Rdf.Proofs.Command.Recovery
import Rdf.Proofs.Command.Agreement
import Rdf.Proofs.Turtle.Eligibility
import Rdf.Proofs.Turtle.Arrangement
import Rdf.Proofs.Document.Writability
import Rdf.Proofs.Token.Joining
import Rdf.Proofs.NTriples.Joining
import Rdf.Proofs.Turtle.Parallel
import Rdf.Proofs.Turtle.Completion
import Rdf.Proofs.Iri.Pattern
import Rdf.Proofs.Graph.Order
import Rdf.Proofs.Document.LocalParts
import Rdf.Proofs.Token.Dotted
import Rdf.Proofs.Token.Numerals
import Rdf.Proofs.Document.Words
import Rdf.Proofs.Text.Lines
import Rdf.Proofs.Token.Progress
import Rdf.Proofs.Text.Hex
import Rdf.Proofs.Token.Walks
import Rdf.Proofs.Token.CodePoints
import Rdf.Proofs.Iri.Stability
