import SimpleHttp.Lib.Search
import SimpleHttp.Lib.CString
import SimpleHttp.Lib.Format
import SimpleHttp.Lib.LexicalPath
import SimpleHttp.Lib.Runs
import SimpleHttp.Lib.Descriptors
import SimpleHttp.Lib.Heap
import SimpleHttp.Lib.Rings
import SimpleHttp.Lib.Chains
import SimpleHttp.Lib.Classes
import SimpleHttp.Lib.Hooks
import SimpleHttp.Reply
import SimpleHttp.Client
import SimpleHttp.ClientResponse
import SimpleHttp.RequestDecode
import SimpleHttp.Confinement
import SimpleHttp.Transfer
import SimpleHttp.Truncation
import SimpleHttp.Server1
import SimpleHttp.Server2
import SimpleHttp.Representation
import SimpleHttp.Refinement
import SimpleHttp.Readiness
import SimpleHttp.FdLimit
import SimpleHttp.Rejection
import SimpleHttp.HeaderBuffer
import SimpleHttp.StatusDecision
import SimpleHttp.SendLoops
import SimpleHttp.ContentLength
import SimpleHttp.Accounting
import SimpleHttp.Delivery
import SimpleHttp.Reports
import SimpleHttp.Startup
import SimpleHttp.PetList
import SimpleHttp.PetListLoops
import SimpleHttp.PetListRuns
import SimpleHttp.PetHlist
import SimpleHttp.PetHlistRuns
import SimpleHttp.PetHashtable
import SimpleHttp.PetHashtableDictionary
import SimpleHttp.PetHashtableTable
import SimpleHttp.PetHashtableEdits
import SimpleHttp.PetHashtableGrowth
import SimpleHttp.PetHashtableRuns
import SimpleHttp.PetHashtableMaps
import SimpleHttp.PetHashtableLifetime
import SimpleHttp.PetHashtableIter
import SimpleHttp.PetHashtableHash
import SimpleHttp.ListExample
import SimpleHttp.HashtableExample
