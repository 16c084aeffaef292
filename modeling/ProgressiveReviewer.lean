import ProgressiveReviewer.Hunks.Text
import ProgressiveReviewer.Library.Merge
import ProgressiveReviewer.Library.RunLength
import ProgressiveReviewer.Hunks.Attribution
import ProgressiveReviewer.Hunks.Rows
import ProgressiveReviewer.Hunks.Review
import ProgressiveReviewer.Hunks.Classify
import ProgressiveReviewer.Hunks.Lines
import ProgressiveReviewer.Hunks.Splice
import ProgressiveReviewer.Hunks.Reopen
import ProgressiveReviewer.Library.Carry
import ProgressiveReviewer.Hunks.Replay
import ProgressiveReviewer.Hunks.Authors
import ProgressiveReviewer.Hunks.Patch
import ProgressiveReviewer.Library.Failing
import ProgressiveReviewer.Marks.Store
import ProgressiveReviewer.Marks.Snapshot
import ProgressiveReviewer.Marks.Tracker
import ProgressiveReviewer.Marks.RoundTrip
import ProgressiveReviewer.Library.Runs
import ProgressiveReviewer.Marks.Expiry
import ProgressiveReviewer.Explore.Agenda
import ProgressiveReviewer.Explore.Checks
import ProgressiveReviewer.Explore.Steps
import ProgressiveReviewer.Explore.Handoffs
import ProgressiveReviewer.Library.Base64
import ProgressiveReviewer.Library.Json
import ProgressiveReviewer.Library.Latest
import ProgressiveReviewer.Marks.Files
import ProgressiveReviewer.Marks.Loading
import ProgressiveReviewer.Marks.Merging
import ProgressiveReviewer.Library.Keyed
import ProgressiveReviewer.Threads.Answering
import ProgressiveReviewer.Threads.Apart
import ProgressiveReviewer.Threads.Status
import ProgressiveReviewer.Drafts.Recovery
import ProgressiveReviewer.Prompts.Courier
import ProgressiveReviewer.Prompts.Deliveries
import ProgressiveReviewer.Explore.Acceptance
import ProgressiveReviewer.Explore.Telling
import ProgressiveReviewer.Explore.Withdrawal
import ProgressiveReviewer.Explore.Growth
import ProgressiveReviewer.Explore.History
import ProgressiveReviewer.Explore.Versions
import ProgressiveReviewer.Explore.Grounding
import ProgressiveReviewer.Explore.Statuses
import ProgressiveReviewer.Library.Fields
import ProgressiveReviewer.Marks.Batch
import ProgressiveReviewer.Library.Brake
import ProgressiveReviewer.RunAhead.Failures
import ProgressiveReviewer.Explore.Restorable
import ProgressiveReviewer.Library.Outcomes
import ProgressiveReviewer.Lsp.Answered
import ProgressiveReviewer.Lsp.Responses
import ProgressiveReviewer.Parsers.GitDiff
import ProgressiveReviewer.Parsers.History
import ProgressiveReviewer.Implementation.Carrying
import ProgressiveReviewer.Implementation.Fates
import ProgressiveReviewer.Implementation.Once
import ProgressiveReviewer.Threads.Awaiting
import ProgressiveReviewer.Wakeups.Channel
import ProgressiveReviewer.Wakeups.Covered
import ProgressiveReviewer.Wakeups.Forgotten
import ProgressiveReviewer.Hunks.DiffText
import ProgressiveReviewer.Hunks.Drawn
import ProgressiveReviewer.Hunks.ReadBack
import ProgressiveReviewer.Hunks.RoundTrip
import ProgressiveReviewer.Hunks.Subsets
import ProgressiveReviewer.Hunks.Undo
import ProgressiveReviewer.Explore.Citation
import ProgressiveReviewer.Parsers.Excerpt
import ProgressiveReviewer.Parsers.Excerpted
import ProgressiveReviewer.Explore.InPlace
import ProgressiveReviewer.Explore.Refused
import ProgressiveReviewer.Anchors.Interval
import ProgressiveReviewer.Ledger.Exclusion
import ProgressiveReviewer.Editor.Shown
import ProgressiveReviewer.Explore.Quiz
import ProgressiveReviewer.Hooks.Listener
import ProgressiveReviewer.Hooks.Truthful
import ProgressiveReviewer.JjDiff.Blocks
import ProgressiveReviewer.JjDiff.Counts
import ProgressiveReviewer.JjDiff.RoundTrip
import ProgressiveReviewer.DiffSearch.Documents
import ProgressiveReviewer.DiffSearch.Refreshes
import ProgressiveReviewer.DiffSearch.Shown
import ProgressiveReviewer.Library.Tiling
import ProgressiveReviewer.Presentation.Rows
import ProgressiveReviewer.Presentation.Sections
import ProgressiveReviewer.Library.Arranging
import ProgressiveReviewer.Library.Words
import ProgressiveReviewer.Marks.DiffCache
import ProgressiveReviewer.Presentation.Folded
import ProgressiveReviewer.Presentation.HidesNothing
import ProgressiveReviewer.Screen.DocumentRows
import ProgressiveReviewer.Hunks.Accepting
import ProgressiveReviewer.Hunks.Reopening
import ProgressiveReviewer.Explore.Alike
import ProgressiveReviewer.Explore.Overview
import ProgressiveReviewer.RunAhead.Keeping
import ProgressiveReviewer.Explore.Named
import ProgressiveReviewer.Explore.Phrases
import ProgressiveReviewer.Page.Blind
import ProgressiveReviewer.Page.View
import ProgressiveReviewer.Page.Hidden
import ProgressiveReviewer.Guard.Printing
import ProgressiveReviewer.Guard.Commands
import ProgressiveReviewer.Unreviewed.Numbered
import ProgressiveReviewer.Unreviewed.Stored
import ProgressiveReviewer.Codex.Rpc
import ProgressiveReviewer.Codex.Reports
import ProgressiveReviewer.Selector.Shares
import ProgressiveReviewer.DiffSearch.Background
import ProgressiveReviewer.Runtime.Loop
import ProgressiveReviewer.Markdown.Rewrite
import ProgressiveReviewer.Markdown.Rewritten
