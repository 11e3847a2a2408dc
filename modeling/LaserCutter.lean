import LaserCutter.CommandLine.FileTree
import LaserCutter.CommandLine.Offline
import LaserCutter.CommandLine.Rehearsal
import LaserCutter.CommandLine.Request
import LaserCutter.CommandLine.Run
import LaserCutter.CommandLine.Words
import LaserCutter.Controller.Address
import LaserCutter.Controller.Channel
import LaserCutter.Controller.Exchange
import LaserCutter.Controller.Inbox
import LaserCutter.Controller.Response
import LaserCutter.Controller.Script
import LaserCutter.Controller.Session
import LaserCutter.Controller.Streamer
import LaserCutter.Image.Dithering
import LaserCutter.Image.Intensity
import LaserCutter.Image.Payload
import LaserCutter.Image.Png
import LaserCutter.Json.Basic
import LaserCutter.Json.Record
import LaserCutter.Json.Text
import LaserCutter.Machine
import LaserCutter.Main
import LaserCutter.Motion.Job
import LaserCutter.Motion.Playhead
import LaserCutter.Motion.Writing
import LaserCutter.Number.Decimal
import LaserCutter.Number.DecimalReader
import LaserCutter.Number.Hypotenuse
import LaserCutter.Plane.Box
import LaserCutter.Program.Lines
import LaserCutter.Program.Manual
import LaserCutter.Program.Writer
import LaserCutter.Proofs.Number.Characters
import LaserCutter.Proofs.Program.Reader
import LaserCutter.Proofs.Motion.Continuity
import LaserCutter.Proofs.Number.RunningSums
import LaserCutter.Proofs.Program.Meaning
import LaserCutter.Proofs.Streaming.Step
import LaserCutter.Proofs.Streaming.ClosedLoop
import LaserCutter.Proofs.Streaming.Delivery
import LaserCutter.Proofs.Streaming.Occupancy
import LaserCutter.Proofs.Toolpath.Continuity
import LaserCutter.Scan.Field
import LaserCutter.Scan.Line
import LaserCutter.Scan.Run
import LaserCutter.Scene.Reading
import LaserCutter.Scene.Writing
import LaserCutter.Text.Blank
import LaserCutter.Text.Lines
import LaserCutter.Text.Utf8
import LaserCutter.Toolpath
import LaserCutter.Proofs.Streaming.Deeds
import LaserCutter.Proofs.Streaming.Wire
import LaserCutter.Proofs.Streaming.Answers
import LaserCutter.Proofs.Streaming.LateAnswers
import LaserCutter.Proofs.Motion.Cuts
import LaserCutter.Proofs.Scan.FarEdge
import LaserCutter.Proofs.Toolpath.Cuts
import LaserCutter.Proofs.Number.Nearest
import LaserCutter.Proofs.Number.Packing
import LaserCutter.Proofs.Program.Sent
import LaserCutter.Proofs.Number.Arithmetic
import LaserCutter.Proofs.Number.Order
import LaserCutter.Proofs.Number.Binary32
import LaserCutter.Proofs.Image.Diffusion
import LaserCutter.Proofs.Image.Transparency
import LaserCutter.Proofs.Number.Binary64
import LaserCutter.Proofs.Curve.Sampling
import LaserCutter.Proofs.Toolpath.Success
import LaserCutter.Proofs.Streaming.Turns
import LaserCutter.Proofs.Streaming.Reading
import LaserCutter.Proofs.Streaming.Queries
import LaserCutter.Proofs.Toolpath.Neutral
import LaserCutter.Proofs.Toolpath.Order
import LaserCutter.Proofs.Number.Counts
import LaserCutter.Proofs.Number.Equality
import LaserCutter.Proofs.Scan.Transposition
import LaserCutter.Proofs.Scan.Merging
import LaserCutter.Proofs.Scan.Rows
import LaserCutter.Proofs.Json.Records
import LaserCutter.Proofs.Scene.Sameness
import LaserCutter.Proofs.Scene.RoundTrip
import LaserCutter.Proofs.Program.Changes
import LaserCutter.Proofs.Streaming.Progress
import LaserCutter.Proofs.Scan.Blocks
import LaserCutter.Proofs.Scan.Power
import LaserCutter.Proofs.Program.Limits
import LaserCutter.Proofs.Motion.Extents
import LaserCutter.Proofs.Streaming.Replies
import LaserCutter.Proofs.Number.Hypotenuse
import LaserCutter.Proofs.Motion.Playback
import LaserCutter.Proofs.Curve.Lengths
import LaserCutter.Proofs.Curve.Coverage
import LaserCutter.Proofs.Text.Cutting
import LaserCutter.Proofs.Streaming.Classification
import LaserCutter.Proofs.Scene.Placement
import LaserCutter.Proofs.Image.Causality
import LaserCutter.Proofs.Curve.Inversion
