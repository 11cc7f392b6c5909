import LiquidityWatch.Address
import LiquidityWatch.Amount
import LiquidityWatch.Arguments
import LiquidityWatch.Binary64
import LiquidityWatch.Binary64.Bits
import LiquidityWatch.Calendar
import LiquidityWatch.Candle
import LiquidityWatch.Command
import LiquidityWatch.CommandLine
import LiquidityWatch.Comparable
import LiquidityWatch.Decimal
import LiquidityWatch.Decimal.Fixed
import LiquidityWatch.Decimal.Shortest
import LiquidityWatch.Deposit
import LiquidityWatch.Endpoint
import LiquidityWatch.Endpoint.Form
import LiquidityWatch.Fault
import LiquidityWatch.Identifier
import LiquidityWatch.Ledger
import LiquidityWatch.Lookup.Position
import LiquidityWatch.Lookup.Prices
import LiquidityWatch.Lookup.Token
import LiquidityWatch.Main
import LiquidityWatch.Money
import LiquidityWatch.Monitor
import LiquidityWatch.Number
import LiquidityWatch.Position
import LiquidityWatch.Profit
import LiquidityWatch.RateLimit
import LiquidityWatch.Report
import LiquidityWatch.Rsi
import LiquidityWatch.Rsi.Reading
import LiquidityWatch.Scalar
import LiquidityWatch.Settings
import LiquidityWatch.SnapshotFile
import LiquidityWatch.Sorting
import LiquidityWatch.Sorting.Adaptive
import LiquidityWatch.Sorting.Merge
import LiquidityWatch.Sorting.Run
import LiquidityWatch.Summary
import LiquidityWatch.Text
import LiquidityWatch.Text.Blank
import LiquidityWatch.Text.Digit
import LiquidityWatch.Text.Encoding
import LiquidityWatch.Text.Numeral
import LiquidityWatch.Text.Printable
import LiquidityWatch.Text.Quoted
import LiquidityWatch.Text.Unit
import LiquidityWatch.Valuation
import LiquidityWatch.Value
import LiquidityWatch.Value.Arithmetic
import LiquidityWatch.Value.Json
import LiquidityWatch.Value.Order
import LiquidityWatch.World
import LiquidityWatch.Proofs.Ledger
import LiquidityWatch.Proofs.Outcome
import LiquidityWatch.Proofs.History
import LiquidityWatch.Proofs.SlidingWindow
import LiquidityWatch.Proofs.AcceptedPositions
import LiquidityWatch.Proofs.AmountText
import LiquidityWatch.Proofs.Conservation
import LiquidityWatch.Proofs.Rounds
import LiquidityWatch.Proofs.Effect
import LiquidityWatch.Proofs.Answers
import LiquidityWatch.Proofs.Findings
import LiquidityWatch.Proofs.CarriedState
import LiquidityWatch.Proofs.Session
import LiquidityWatch.Proofs.Rounding
import LiquidityWatch.Proofs.Index
import LiquidityWatch.Proofs.Readings
import LiquidityWatch.Proofs.Requests
import LiquidityWatch.Proofs.SortedNames
import LiquidityWatch.Proofs.DepositLookups
import LiquidityWatch.Proofs.Documents
import LiquidityWatch.Proofs.LookupDocuments
import LiquidityWatch.Proofs.LookupOutcomes
import LiquidityWatch.Proofs.SentRequests
import LiquidityWatch.Proofs.RequestPlan
import LiquidityWatch.Proofs.PlannedSessions
import LiquidityWatch.Proofs.SnapshotLoading
import LiquidityWatch.Proofs.NamedReports
import LiquidityWatch.Proofs.Turns
import LiquidityWatch.Proofs.FileOrder
import LiquidityWatch.Proofs.Arrangement
import LiquidityWatch.Proofs.NameSorts
import LiquidityWatch.Proofs.UnansweredLookups
import LiquidityWatch.Proofs.UnansweredReports
import LiquidityWatch.Proofs.ExactScalar
import LiquidityWatch.Proofs.SmoothedAverage
import LiquidityWatch.Proofs.IndexLaws
import LiquidityWatch.Proofs.StableOrder
import LiquidityWatch.Proofs.SampleOrder
import LiquidityWatch.Proofs.UsableCandles
import LiquidityWatch.Proofs.TimeOrder
import LiquidityWatch.Proofs.AmountRange
import LiquidityWatch.Proofs.Numerals
import LiquidityWatch.Proofs.AmountNumerals
import LiquidityWatch.Proofs.WholeFields
import LiquidityWatch.Proofs.PriceEntries
import LiquidityWatch.Proofs.DateRange
import LiquidityWatch.Proofs.ShownFindings
import LiquidityWatch.Proofs.GreatestReserve
import LiquidityWatch.Proofs.OwnFields
import LiquidityWatch.Proofs.AcceptedLines
import LiquidityWatch.Proofs.CheckedAddresses
import LiquidityWatch.Proofs.CandleSizes
