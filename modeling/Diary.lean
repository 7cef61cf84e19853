import Diary.CString
import Diary.Memory
import Diary.Calendar
import Diary.AutoTable
import Diary.Machine
import Diary.Storage
import Diary.Handler
import Diary.RequestLines
import Diary.Book
import Diary.View
import Diary.RowIds
import Diary.Registration
import Diary.Isolation
import Diary.Net
import Diary.Entries
import Diary.Lockstep
import Diary.ClientOrder
import Diary.CanonicalOrder
import Diary.ListScreen
import Diary.AndroidReply
import Diary.MainActivity
import Diary.EntryActivity
import Diary.EntrySession
import Diary.Editor
import Diary.Escape
import Diary.Session
import Diary.Stdin
import Diary.Selection
import Diary.WriteAhead
import Diary.Drafts
import Diary.CodeText
import Diary.Wrap
import Diary.CharEditor
import Diary.Layout
import Diary.Preview
import Diary.WideCharacters
import Diary.Motion
import Diary.ViewScreen
import Diary.EditorKeys
import Diary.EditorBuffer
import Diary.Dates
import Diary.Utf8
import Diary.JavaString
import Diary.Crypto
import Diary.DiaryConnection
import Diary.Notebook
import Diary.Devices
import Diary.RowOrders
import Diary.Tui
import Diary.AndroidApp
import Diary.Setup
import Diary.Heap
import Diary.ListHeap
import Diary.EntryAt
import Diary.ServerHeap
import Diary.Rows
import Diary.EditorScreen
import Diary.Reading
