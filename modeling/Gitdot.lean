import Gitdot.Review.Conflicts
import Gitdot.Review.Rebase
import Gitdot.Review.Parents
import Gitdot.Review.History
import Gitdot.Review.RefTable
import Gitdot.Review.LifeCycle
import Gitdot.Review.Retry
import Gitdot.Review.Patches
import Gitdot.Server.Inside
import Gitdot.Server.Writers
import Gitdot.Auth.Grace
import Gitdot.Auth.Revocation
import Gitdot.Auth.Linear
import Gitdot.Auth.Probing
import Gitdot.Auth.Addresses
import Gitdot.Auth.AccessTokens
import Gitdot.Ci.TaskTokens
import Gitdot.Ci.Job
import Gitdot.Ci.Ordering
import Gitdot.Ci.TaskLifeCycle
import Gitdot.Ci.Progress
import Gitdot.Auth.RedisClient
import Gitdot.Ci.Polling
import Gitdot.Server.Verdicts
import Gitdot.Server.PushedRefs
import Gitdot.Server.Migrating
import Gitdot.Review.Concurrent
import Gitdot.Server.Stars
import Gitdot.Server.Questions
import Gitdot.Server.Listings
import Gitdot.Server.Commits
import Gitdot.Server.Mirror
import Gitdot.Server.Handles
import Gitdot.Server.Renames
import Gitdot.Server.Compensation
import Gitdot.Server.Conversations
import Gitdot.Web.Sync
import Gitdot.Web.Threads
import Gitdot.Web.Diff
import Gitdot.Web.Rendering
import Gitdot.Web.Layouts
import Gitdot.Web.Anchors
import Gitdot.Lib.Subsequence
import Gitdot.Web.Fuzzy
import Gitdot.Web.FuzzyMatrix
import Gitdot.Web.FuzzyWindow
import Gitdot.Web.FuzzyShift
import Gitdot.Lib.Grouping
import Gitdot.Web.PrimaryPaths
import Gitdot.Lib.Calendar
import Gitdot.Web.CommitsGrid
import Gitdot.Auth.Mailboxes
import Gitdot.Server.ReviewAccess
import Gitdot.Ci.Cycles
import Gitdot.Ci.BuildViews
import Gitdot.Ci.Starvation
import Gitdot.Server.CommitLookup
import Gitdot.Server.Cgi
import Gitdot.Server.LimitedReader
import Gitdot.Server.ReviewRefs
import Gitdot.Server.Hooks
import Gitdot.Server.Profiles
import Gitdot.Server.SlackRequests
import Gitdot.Web.Tokens
import Gitdot.Web.CommitFilters
import Gitdot.Lib.Waiting
import Gitdot.S2.Record
import Gitdot.S2.Streamer
import Gitdot.S2.Log
import Gitdot.S2.Deciding
import Gitdot.S2.Backend
import Gitdot.S2.Rows
import Gitdot.S2.Safety
import Gitdot.S2.Replies
import Gitdot.S2.Reading
