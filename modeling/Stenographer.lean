import Stenographer.Lib.SortedList
import Stenographer.Lib.Bytes
import Stenographer.Lib.SortedMap
import Stenographer.Lib.Returns
import Stenographer.Lib.Lex
import Stenographer.Base.Positions
import Stenographer.Stenotype.Host
import Stenographer.Stenotype.Process
import Stenographer.Stenotype.Index
import Stenographer.Stenotype.WriteTo
import Stenographer.Indexfile.IndexFile
import Stenographer.Indexfile.RoundTrip
import Stenographer.Lib.EarlyExit
import Stenographer.Query.Query
import Stenographer.Lib.KeyedList
import Stenographer.Lib.Loop
import Stenographer.Stenotype.Aio
import Stenographer.Stenotype.RunThread
import Stenographer.Query.TimeFilter
import Stenographer.Base.Packets
import Stenographer.Blockfile.BlockFile
import Stenographer.Lib.Merge
import Stenographer.Env.Lookup
import Stenographer.Base.PacketsToFile
import Stenographer.Stenotype.Queue
import Stenographer.Env.Cleanup
import Stenographer.Filecache.Cache
import Stenographer.Filecache.Lru
import Stenographer.Blockfile.Open
import Stenographer.Rpc.RetrievePcap
import Stenographer.Lib.Mask
import Stenographer.Query.Net
import Stenographer.Lib.Yacc
import Stenographer.Query.Lexer
import Stenographer.Query.Parser
import Stenographer.Query.NewQuery
import Stenographer.Lib.Memory
import Stenographer.Stenotype.SliceSet
import Stenographer.Lib.FilePath
import Stenographer.Thread.Thread
import Stenographer.Stenotype.Ring
import Stenographer.Lib.Strtol
import Stenographer.Stenotype.Options
import Stenographer.Stenotype.Indexing
import Stenographer.Blockfile.ReadBack
import Stenographer.Blockfile.Search
import Stenographer.Env.Search
