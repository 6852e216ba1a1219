import YbeSms.Source.Domains
import YbeSms.Library.Cnf
import YbeSms.Library.Numbering
import YbeSms.Library.Traced
import YbeSms.Library.Centralizer
import YbeSms.Library.Partitions
import YbeSms.Source.Global
import YbeSms.Source.MinCheckV2
import YbeSms.Guarantees.GenuineSymmetries
import YbeSms.Abstract.CycleSet
import YbeSms.Abstract.Trail
import YbeSms.Guarantees.DomainRestore
import YbeSms.Guarantees.ExactEncoding
import YbeSms.Guarantees.TrailPicture
import YbeSms.Guarantees.ExactlyOneExact
import YbeSms.Guarantees.ClausesAccounted
import YbeSms.Guarantees.DiagonalTransversal
import YbeSms.Guarantees.DiagonalTables
import YbeSms.Guarantees.PartialPerms
import YbeSms.Guarantees.ClauseAssembly
import YbeSms.Guarantees.ShortEncoder
import YbeSms.Guarantees.DomainsExact
import YbeSms.Library.FreshLiterals
import YbeSms.Guarantees.EntryNumbering
import YbeSms.Guarantees.SymmetryClauses
import YbeSms.Guarantees.FinalCheck
import YbeSms.Guarantees.DiagonalSplitting
import YbeSms.Guarantees.OldEncoder
import YbeSms.Guarantees.UnitClauses
import YbeSms.Guarantees.CompleteEnumeration
import YbeSms.Guarantees.SingleModel
import YbeSms.Guarantees.WritesOnce
import YbeSms.Guarantees.SolveLoop
import YbeSms.Guarantees.QueueRefinement
import YbeSms.Guarantees.WholeProgram
import YbeSms.Guarantees.PropagatedState
import YbeSms.Guarantees.SymmetryBreaking
