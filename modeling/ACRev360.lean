import ACRev360.Theorems.Agreement
import ACRev360.Theorems.Coverage
import ACRev360.Theorems.Settlements
import ACRev360.Services.Middleware
import ACRev360.Theorems.Settlements
import ACRev360.Services.Middleware
import ACRev360.Theorems.Idempotency
import ACRev360.Library.Total
import ACRev360.Theorems.Posting
import ACRev360.Theorems.OTCSettlement
import ACRev360.Services.Tenancy
import ACRev360.Theorems.TenantContext
import ACRev360.Services.Scoping
import ACRev360.Theorems.Visibility
import ACRev360.Services.Portfolios
import ACRev360.Library.Memo
import ACRev360.Services.ReadModels
import ACRev360.Theorems.Portfolios
import ACRev360.Theorems.ReadModels
import ACRev360.Theorems.Charges
import ACRev360.Theorems.DebtCases
import ACRev360.Services.Retirement
import ACRev360.Theorems.Retirement
import ACRev360.Services.Deletions
import ACRev360.Theorems.Deletions
import ACRev360.Theorems.Enrolment
import ACRev360.Services.Banding
import ACRev360.Theorems.Allocation
import ACRev360.Theorems.Reversal
import ACRev360.Theorems.Structure
import ACRev360.Library.Forest
import ACRev360.Theorems.History
import ACRev360.Services.Rates
import ACRev360.Theorems.Rates
import ACRev360.Theorems.Bandings
import ACRev360.Theorems.Pricing
import ACRev360.Library.Grouping
import ACRev360.Theorems.Sharing
import ACRev360.Theorems.Issuing
import ACRev360.Services.Reconciliation
import ACRev360.Theorems.Reconciliation
import ACRev360.Theorems.Routes
import ACRev360.Theorems.LiveSummary
import ACRev360.Theorems.FeedRows
import ACRev360.Theorems.Assignments
import ACRev360.Theorems.Worklist
import ACRev360.Library.Delimited
import ACRev360.Services.CacheKeys
import ACRev360.Theorems.CacheKeys
import ACRev360.Theorems.DrillDown
import ACRev360.Services.Reports
import ACRev360.Theorems.Reports
import ACRev360.Theorems.ConsultantRows
import ACRev360.Services.PlatformScope
import ACRev360.Theorems.PlatformScope
import ACRev360.Library.Newest
import ACRev360.Services.AuditLog
import ACRev360.Theorems.Names
import ACRev360.Services.Filtering
import ACRev360.Theorems.AuditLog
import ACRev360.Objects.Literals
import ACRev360.Theorems.Periods
import ACRev360.Theorems.Filters
import ACRev360.Theorems.Ageing
import ACRev360.Library.Sequences
import ACRev360.Theorems.LineOrder
import ACRev360.Library.Steady
import ACRev360.Theorems.OneBill
import ACRev360.Theorems.Concurrency
import ACRev360.Library.Replace
import ACRev360.Objects.Logins
import ACRev360.Services.Logins
import ACRev360.Services.Portal
import ACRev360.Library.Contracts
import ACRev360.Theorems.LoginChanges
import ACRev360.Theorems.Logins
import ACRev360.Theorems.Delegations
import ACRev360.Theorems.Refusals
import ACRev360.Theorems.Replays
import ACRev360.Theorems.Lifecycle
