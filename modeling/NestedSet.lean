import NestedSet.Bounds
import NestedSet.Cell
import NestedSet.Column
import NestedSet.Config
import NestedSet.Database
import NestedSet.Editing
import NestedSet.Forest
import NestedSet.Forest.Edit
import NestedSet.Handle
import NestedSet.Proofs.Absence
import NestedSet.Proofs.Adjacency
import NestedSet.Proofs.Agreement
import NestedSet.Proofs.Carrying
import NestedSet.Proofs.Chronicle
import NestedSet.Proofs.Cohabiting
import NestedSet.Proofs.Committing
import NestedSet.Proofs.Declaring
import NestedSet.Proofs.Decoding
import NestedSet.Proofs.Diagnosis
import NestedSet.Proofs.Gathering
import NestedSet.Proofs.Generations
import NestedSet.Proofs.Grammar
import NestedSet.Proofs.Isolation
import NestedSet.Proofs.Issuing
import NestedSet.Proofs.Overtaking
import NestedSet.Proofs.Pruning
import NestedSet.Proofs.Reinstalling
import NestedSet.Proofs.Returning
import NestedSet.Proofs.Serial
import NestedSet.Proofs.Strictness
import NestedSet.Schema.Summary
import NestedSet.Trial
