import LempelZiv.Index.Chain
import LempelZiv.Parse.Parser
import LempelZiv.Session.Basic
import LempelZiv.Token.Expansion
import LempelZiv.Token.Summary
import LempelZiv.Proofs.Buffer.SharedLength
import LempelZiv.Proofs.Index.Contents
import LempelZiv.Proofs.Scan.Tracking
import LempelZiv.Proofs.Search.Counting
import LempelZiv.Proofs.Search.Reference
import LempelZiv.Proofs.Scan.Visits
import LempelZiv.Proofs.Scan.Agreement
import LempelZiv.Proofs.Search.Soundness
import LempelZiv.Proofs.Search.FullDepth
import LempelZiv.Proofs.Search.ChainWalk
import LempelZiv.Proofs.Session.Contents
import LempelZiv.Proofs.Session.Agreement
import LempelZiv.Proofs.Scan.Confluence
import LempelZiv.Proofs.Scan.Recording
import LempelZiv.Proofs.Search.Threshold
import LempelZiv.Proofs.Token.Copy
import LempelZiv.Proofs.Parse.Stateless
import LempelZiv.Proofs.Parse.Calls
import LempelZiv.Proofs.Parse.Loops
import LempelZiv.Proofs.Parse.MatchTable
import LempelZiv.Proofs.Parse.Outcome
import LempelZiv.Proofs.Parse.Reuse
import LempelZiv.Proofs.Parse.LongestCopy
import LempelZiv.Proofs.Parse.Encodable
import LempelZiv.Proofs.Parse.RoundTrip
import LempelZiv.Proofs.Token.Decoding
import LempelZiv.Proofs.Token.Repetition
import LempelZiv.Proofs.Token.Division
import LempelZiv.Proofs.Search.Nearest
import LempelZiv.Proofs.Parse.Lookahead
import LempelZiv.Proofs.Search.Limits
import LempelZiv.Proofs.Search.Effort
import LempelZiv.Proofs.Session.Rejection
import LempelZiv.Proofs.Session.Afresh
import LempelZiv.Proofs.Search.Guarded
import LempelZiv.Proofs.Scan.Guarded
import LempelZiv.Proofs.Scan.Afresh
import LempelZiv.Proofs.Parse.Coverage
import LempelZiv.Proofs.Parse.Runs
import LempelZiv.Proofs.Search.Extension
