import KeyTables.Text.Basic
import KeyTables.Text.Blank
import KeyTables.Text.Lines
import KeyTables.Text.Digit
import KeyTables.Text.Printable
import KeyTables.Text.Quoted
import KeyTables.Text.Raw
import KeyTables.Text.Capital
import KeyTables.Text.Utf8
import KeyTables.Token.Basic
import KeyTables.Token.Lexer
import KeyTables.Token.Cursor
import KeyTables.Path
import KeyTables.Note
import KeyTables.Block.Basic
import KeyTables.Block.Reader
import KeyTables.Block.Keys
import KeyTables.Block.Table
import KeyTables.Block.Parser
import KeyTables.Grid.Basic
import KeyTables.Grid.Parser
import KeyTables.Drawing.Glyph
import KeyTables.Drawing.Border
import KeyTables.Drawing.Diagram
import KeyTables.Drawing.KeyList
import KeyTables.Drawing.Table
import KeyTables.Block.Patch
import KeyTables.Format.Source
import KeyTables.Disk
import KeyTables.Tree
import KeyTables.Format.File
import KeyTables.Settings
import KeyTables.Command.Arguments
import KeyTables.Command.Run
import KeyTables.Main
import KeyTables.Proofs.Text.Encoding
import KeyTables.Proofs.Token.Seam
import KeyTables.Proofs.Token.Spelling
import KeyTables.Proofs.Token.Extent
import KeyTables.Proofs.Token.Uncommented
import KeyTables.Proofs.Token.Code
import KeyTables.Proofs.Block.CompoundScan
import KeyTables.Proofs.Block.KeyText
import KeyTables.Proofs.Block.KeyReading
import KeyTables.Proofs.Block.Entries
import KeyTables.Proofs.Block.Geometry
import KeyTables.Proofs.Block.FirstHeader
import KeyTables.Proofs.Block.Locality
import KeyTables.Proofs.Block.Patching
import KeyTables.Proofs.Block.Segment
import KeyTables.Proofs.Block.Body
import KeyTables.Proofs.Block.Layout
import KeyTables.Proofs.Block.ReadBack
import KeyTables.Proofs.Block.Misread
import KeyTables.Proofs.Block.KeyInk
import KeyTables.Proofs.Drawing.KeyList
import KeyTables.Proofs.Drawing.Diagram
import KeyTables.Proofs.Drawing.Entry
import KeyTables.Proofs.Drawing.Forms
import KeyTables.Proofs.Drawing.Canonical
import KeyTables.Proofs.Drawing.TableCode
import KeyTables.Proofs.Block.Splice
import KeyTables.Proofs.Format.Redraw
import KeyTables.Proofs.Format.Outcome
import KeyTables.Proofs.Format.Runs
import KeyTables.Proofs.Format.Breaks
import KeyTables.Proofs.Format.Stability
import KeyTables.Proofs.Format.Survival
import KeyTables.Proofs.Format.Safety
import KeyTables.Proofs.Format.Code
import KeyTables.Proofs.Block.Scan
import KeyTables.Proofs.Block.ClosingBrace
import KeyTables.Proofs.Format.Brackets
import KeyTables.Proofs.Grammar.Elements
import KeyTables.Proofs.Grammar.Declaration
import KeyTables.Proofs.Grammar.Reading
import KeyTables.Proofs.Token.Partition
import KeyTables.Proofs.Token.Append
import KeyTables.Proofs.Block.Pulling
import KeyTables.Proofs.Block.Session
import KeyTables.Proofs.Format.Separator
import KeyTables.Proofs.Disk
import KeyTables.Proofs.Command.Requests
import KeyTables.Proofs.Command.Modes
import KeyTables.Proofs.Command.Endings
import KeyTables.Proofs.Grid.Rank
import KeyTables.Proofs.Drawing.Columns
import KeyTables.Proofs.Drawing.Cells
import KeyTables.Proofs.Drawing.Picture
import KeyTables.Proofs.Drawing.Arms
import KeyTables.Proofs.Drawing.KeyOrder
import KeyTables.Proofs.Drawing.Padding
import KeyTables.Proofs.Text.Words
import KeyTables.Proofs.Grid.Reading
import KeyTables.Proofs.Drawing.Alignment
import KeyTables.Proofs.Block.Balance
import KeyTables.Proofs.Token.Reprint
