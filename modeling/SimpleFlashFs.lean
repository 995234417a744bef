import SimpleFlashFs.Create
import SimpleFlashFs.Remount
import SimpleFlashFs.LookupRule
import SimpleFlashFs.HeaderCodec
import SimpleFlashFs.InodeCodec
import SimpleFlashFs.Buffered
import SimpleFlashFs.ResizedContent
import SimpleFlashFs.Openers
import SimpleFlashFs.LookupRace
import SimpleFlashFs.VfsServer
import SimpleFlashFs.FlashPages
import SimpleFlashFs.IniStore
import SimpleFlashFs.Cursor
import SimpleFlashFs.Reclaim
import SimpleFlashFs.OpenTrunc
import SimpleFlashFs.NewestVersion
import SimpleFlashFs.InodeClaim
import SimpleFlashFs.IniInsert
import SimpleFlashFs.Corrections
import SimpleFlashFs.SharedRead
import SimpleFlashFs.BankCopy
import SimpleFlashFs.DefaultLayout
import SimpleFlashFs.ExactReclaim
import SimpleFlashFs.LineReader
import SimpleFlashFs.BufferWindow
import SimpleFlashFs.EndOfFile
import SimpleFlashFs.TrashStat
import SimpleFlashFs.History
import SimpleFlashFs.PageSetRefinement
import SimpleFlashFs.FreePages
import SimpleFlashFs.PageShape
import SimpleFlashFs.Wrapper
import SimpleFlashFs.TornInodes
import SimpleFlashFs.BurstErrors
import SimpleFlashFs.InstanceLock
import SimpleFlashFs.IniBlob
import SimpleFlashFs.Sessions
import SimpleFlashFs.DriveStore
