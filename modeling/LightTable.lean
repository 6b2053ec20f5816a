import LightTable.Table.NumericKeys
import LightTable.Table.Nested
import LightTable.Table.Ownership
import LightTable.Table.Overwrite
import LightTable.Table.Growth
import LightTable.Table.Overflow
import LightTable.Table.Rereading
import LightTable.Table.Getters
import LightTable.Table.Keys
import LightTable.Table.Buffers
import LightTable.Lua.Index
import LightTable.Lua.Traversal
import LightTable.Lua.Height
import LightTable.Lua.Ends
import LightTable.Lua.Assign
import LightTable.Concurrency.MapRef
import LightTable.Concurrency.GetString
import LightTable.Concurrency.Setters
import LightTable.Concurrency.Search
import LightTable.Pool.Destroy
import LightTable.Primes
import LightTable.Hash.Buckets
import LightTable.Concurrency.SlotLock
import LightTable.Concurrency.Enumeration
import LightTable.Lib.Owners
import LightTable.Table.Sharing
import LightTable.Table.Session
import LightTable.Lua.Discard
import LightTable.Lua.RoundTrip
import LightTable.Lua.Script
