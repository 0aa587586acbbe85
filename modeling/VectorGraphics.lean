import VectorGraphics.Color
import VectorGraphics.CommandLine.Arguments
import VectorGraphics.CommandLine.Request
import VectorGraphics.CommandLine.Response
import VectorGraphics.Conversion.ClipPaths
import VectorGraphics.Conversion.ToSvg
import VectorGraphics.Conversion.ToVectorDrawable
import VectorGraphics.Geometry.Matrix
import VectorGraphics.Geometry.Point
import VectorGraphics.Graphic.Attributes
import VectorGraphics.Graphic.Document
import VectorGraphics.Graphic.Element
import VectorGraphics.Graphic.Notice
import VectorGraphics.Graphic.Reading
import VectorGraphics.Graphic.Scope
import VectorGraphics.Main
import VectorGraphics.Markup.Attribute
import VectorGraphics.Markup.Element
import VectorGraphics.Markup.Reader
import VectorGraphics.Markup.Reference
import VectorGraphics.Markup.Token
import VectorGraphics.Markup.Writer
import VectorGraphics.Number.Binary
import VectorGraphics.Number.Decimal
import VectorGraphics.Number.Places
import VectorGraphics.Number.Shortest
import VectorGraphics.Number.Trigonometry
import VectorGraphics.Optimizer.Attributes
import VectorGraphics.Optimizer.Groups
import VectorGraphics.Optimizer.Pass
import VectorGraphics.Optimizer.Runs
import VectorGraphics.Optimizer.Stroke
import VectorGraphics.Optimizer.Transforms
import VectorGraphics.Optimizer.Traversal
import VectorGraphics.Path.Arcs
import VectorGraphics.Path.Bounds
import VectorGraphics.Path.Command
import VectorGraphics.Path.Curves
import VectorGraphics.Path.Mapping
import VectorGraphics.Path.Pen
import VectorGraphics.Path.Printer
import VectorGraphics.Path.Reader
import VectorGraphics.Path.Spelling
import VectorGraphics.Svg.Reader
import VectorGraphics.Svg.Transform
import VectorGraphics.Svg.Writer
import VectorGraphics.Text.Quoted
import VectorGraphics.Text.Search
import VectorGraphics.VectorDrawable.Reader
import VectorGraphics.VectorDrawable.Writer
import VectorGraphics.Proofs.Number.Packing
import VectorGraphics.Proofs.Number.Rounding
import VectorGraphics.Proofs.Number.Arithmetic
import VectorGraphics.Proofs.Number.Exact
import VectorGraphics.Proofs.Number.Whole
import VectorGraphics.Proofs.Number.Literal
import VectorGraphics.Proofs.Path.Scanning
import VectorGraphics.Proofs.Path.RoundTrip
import VectorGraphics.Proofs.Path.Events
import VectorGraphics.Proofs.Path.Grid
import VectorGraphics.Proofs.Path.StraightPaths
import VectorGraphics.Proofs.Optimizer.Baking
import VectorGraphics.Proofs.Markup.Documents
import VectorGraphics.Proofs.Path.Alphabet
import VectorGraphics.Proofs.Path.Openings
import VectorGraphics.Proofs.Graphic.Labels
import VectorGraphics.Proofs.Graphic.Properties
import VectorGraphics.Proofs.Optimizer.Properties
import VectorGraphics.Proofs.Graphic.Soundness
import VectorGraphics.Proofs.Optimizer.Soundness
import VectorGraphics.Proofs.Conversion.Soundness
import VectorGraphics.Proofs.Graphic.Legibility
import VectorGraphics.Proofs.Graphic.Outcomes
import VectorGraphics.Proofs.Svg.Documents
import VectorGraphics.Proofs.VectorDrawable.Documents
import VectorGraphics.Proofs.Optimizer.ReadingBack
import VectorGraphics.Proofs.Path.Numerals
import VectorGraphics.Proofs.Path.Grammar
import VectorGraphics.Proofs.Number.Order
import VectorGraphics.Proofs.Path.Outline
import VectorGraphics.Proofs.Optimizer.Merging
import VectorGraphics.Proofs.Graphic.Tidiness
import VectorGraphics.Proofs.Optimizer.Operations
import VectorGraphics.Proofs.Graphic.Declarations
import VectorGraphics.Proofs.Graphic.Scopes
import VectorGraphics.Proofs.Optimizer.Defaults
import VectorGraphics.Proofs.Graphic.Inheritance
import VectorGraphics.Proofs.Path.Lengths
import VectorGraphics.Proofs.Optimizer.Sightings
import VectorGraphics.Proofs.Optimizer.Flattening
import VectorGraphics.Proofs.Optimizer.ClipReaches
import VectorGraphics.Proofs.Conversion.GeneratedClips
import VectorGraphics.Proofs.Conversion.Scenes
import VectorGraphics.Proofs.Conversion.ClippedGroups
import VectorGraphics.Proofs.Conversion.ClipRegions
import VectorGraphics.Proofs.Markup.NormalForm
import VectorGraphics.Proofs.Number.Texts
import VectorGraphics.Proofs.Svg.Transforms
import VectorGraphics.Proofs.Graphic.Rereading
import VectorGraphics.Proofs.Graphic.RoundTrip
import VectorGraphics.Proofs.Markup.Contents
import VectorGraphics.Proofs.Markup.DocumentContents
import VectorGraphics.Proofs.Optimizer.Alternatives
import VectorGraphics.Proofs.Svg.OpaqueElements
import VectorGraphics.Proofs.Path.Repetitions
import VectorGraphics.Proofs.Path.Drift
import VectorGraphics.Proofs.Path.Trajectories
import VectorGraphics.Proofs.Path.ArcFits
import VectorGraphics.Proofs.Path.SmoothSuccessors
import VectorGraphics.Proofs.Path.Splitting
import VectorGraphics.Proofs.Path.ModeChoice
import VectorGraphics.Proofs.Path.PrintedDrift
import VectorGraphics.Proofs.Path.Images
import VectorGraphics.Proofs.Optimizer.MergingTwice
import VectorGraphics.Proofs.Optimizer.PaintReferences
import VectorGraphics.Proofs.Path.OutlineBounds
import VectorGraphics.Proofs.Color.ShortTexts
import VectorGraphics.Proofs.Optimizer.ColorTexts
import VectorGraphics.Proofs.Optimizer.RepeatedEdits
import VectorGraphics.Proofs.Svg.TransformLists
import VectorGraphics.Proofs.VectorDrawable.GroupTransforms
import VectorGraphics.Proofs.Path.GroupEnds
import VectorGraphics.Proofs.Number.Accuracy
import VectorGraphics.Proofs.Path.PrintedTwice
