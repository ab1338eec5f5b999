import MarkupTemplate.Main
import MarkupTemplate.Proofs.Nesting
import MarkupTemplate.Proofs.Outline.Expandable
import MarkupTemplate.Proofs.Compiler.LineMarks
import MarkupTemplate.Proofs.Outline.Silent
import MarkupTemplate.Proofs.Outline.Indented
import MarkupTemplate.Proofs.Compiler.OutputLines
import MarkupTemplate.Proofs.Compiler.Suites
import MarkupTemplate.Proofs.Embedded.Restored
import MarkupTemplate.Proofs.Compiler.Voids
import MarkupTemplate.Proofs.Session
import MarkupTemplate.Proofs.Attribute.Switched
import MarkupTemplate.Proofs.Attribute.Folded
import MarkupTemplate.Proofs.Outline.Dedented
import MarkupTemplate.Proofs.Outline.Inked
import MarkupTemplate.Proofs.Outline.WrittenLists
import MarkupTemplate.Proofs.Attribute.Sorting
import MarkupTemplate.Proofs.Outline.Backslash
import MarkupTemplate.Proofs.Node.Closings
import MarkupTemplate.Proofs.Embedded.Preserved
import MarkupTemplate.Proofs.Options.Merged
import MarkupTemplate.Proofs.Program.Labelled
import MarkupTemplate.Proofs.Program.Literals
import MarkupTemplate.Proofs.Value.Harmless
