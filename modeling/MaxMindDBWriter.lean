import MaxMindDBWriter.Tree
import MaxMindDBWriter.Descent
import MaxMindDBWriter.Operations
import MaxMindDBWriter.Iteration
import MaxMindDBWriter.Paths
import MaxMindDBWriter.Labelled
import MaxMindDBWriter.Reachable
import MaxMindDBWriter.PrefixLaws
import MaxMindDBWriter.Aliases
import MaxMindDBWriter.Acyclic
import MaxMindDBWriter.SiblingMerge
import MaxMindDBWriter.Numbering
import MaxMindDBWriter.Canonical
import MaxMindDBWriter.AliasedNumbering
import MaxMindDBWriter.InsertOrder
import MaxMindDBWriter.AddressMap
import MaxMindDBWriter.References
import MaxMindDBWriter.SearchTree
import MaxMindDBWriter.Pool
